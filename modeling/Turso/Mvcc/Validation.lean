import Turso.Mvcc.Isolation

/-!
# Validation

Of two transactions with writes in conflict that overlap, the one that ends later finds the stamp of
the other when it validates, as long as both may survive.  So as long as it is not refused, it still
has to look at the chain with that stamp (`System.Validates`); and no two committed transactions
are like this.
-/

namespace Turso.Mvcc

open History CommitState MvStore

variable {RowId Row Key : Type}

/-- The transaction is refused, or has yet to look at `chain` for its write to `row`. -/
def CommitState.Owes (row chain : RowId) : CommitState RowId → Prop
  | .commit rows chains => row ∈ rows ∨ chain ∈ chains
  | .failed => True
  | _ => False

section
variable (conflictKey : RowId → Option Key)

variable (s : System RowId Row)

/-- Two writes in conflict: `id` ends after `other` but began before that. -/
structure System.Conflict (id other : TxId) (row chain : RowId) : Prop where
  keys : conflictKey row ≠ none ∧ conflictKey chain = conflictKey row
  writes : s.writes row id ≠ none
  writes' : s.writes chain other ≠ none
  ends : ∃ ts ts', s.history.endOf other = some ts ∧ s.history.endOf id = some ts' ∧ ts < ts'
  overlap : ¬ s.history.times.Before other id

structure System.Validates : Prop where
  owes : ∀ {survivors id other row chain}, s.history.Viable survivors → id ∈ survivors →
    other ∈ survivors → s.Conflict conflictKey id other row chain →
      ∃ tx, s.store.txs id = some tx ∧ tx.commitState.Owes row chain

theorem validates_empty : (System.empty : System RowId Row).Validates conflictKey := by
  constructor
  intro sv id x r chain _ _ _ hconflict
  exact absurd rfl hconflict.writes

end

section Step
variable {conflictKey : RowId → Option Key} {s s' : System RowId Row} {taken : Step RowId Row}
  {row chain : RowId} {sv : Set TxId} {id other : TxId} {tx tx' : Transaction RowId Row}

theorem System.Isolation.ordered (h : s.Isolation) (hreliance : s.Reliance)
    {version : RowVersion Row} (hm : version ∈ s.store.rows row) : s.history.Ordered version := by
  intro c d hc hd hne
  have hm' : s.history.image version ∈ s.chain row := ⟨version, hm, rfl⟩
  refine ⟨((h.traced row hreliance.viable).ordered hm' hc hd hne).1, ?_⟩
  exact fun sv hviable => ((h.traced row hviable).ordered hm' hc hd hne).2

/-- A survivor that wrote to a row has its stamp in the chain. -/
theorem System.Isolation.present (h : s.Isolation) (hviable : s.history.Viable sv)
    (hsv : id ∈ sv) (hwrote : s.writes row id ≠ none) :
    ∃ v ∈ s.store.rows row, (s.history.image v).creator = some id ∨
      (s.history.image v).deleter = some id := by
  obtain ⟨_, ⟨v, hm, rfl⟩, hstamp⟩ := (h.traced row hviable).present hsv hwrote
  exact ⟨v, hm, hstamp⟩

variable [DecidableEq RowId] [DecidableEq Key]

theorem System.Isolation.mem_writeSet (h : s.Isolation) (hagrees : s.Agrees) (hstamps : s.Stamps)
    (hviable : s.history.Viable sv) (hsv : id ∈ sv)
    (hwrote : s.writes row id ≠ none) (htx : s.store.txs id = some tx)
    (hactive : tx.state = .active) : row ∈ tx.writeSet := by
  obtain ⟨r, hr, hmatches⟩ := hagrees.known htx
  obtain ⟨v, hm, hstamp⟩ := h.present hviable hsv hwrote
  -- who is active has no end, so the stamp is the id
  have hwriter : ∀ {stamp}, s.history.writer stamp = some id → stamp = .txId id := by
    intro stamp hwriter
    cases stamp with
    | txId found => exact congrArg _ (Option.some.inj hwriter)
    | timestamp ts =>
      obtain ⟨found, hf, he⟩ := hagrees.ender_iff.mp hwriter
      rw [hr] at hf
      cases hf
      rw [(hagrees.active htx hactive hr).1] at he
      cases he
  have hcarries : v.Carries (.txId id) := by
    obtain hstamp | hstamp := hstamp
    · obtain ⟨stamp, hbg, hstamp⟩ := Option.bind_eq_some_iff.mp hstamp
      exact .inl (hwriter hstamp ▸ hbg)
    · obtain ⟨stamp, he, hstamp⟩ := Option.bind_eq_some_iff.mp hstamp
      exact .inr (hwriter hstamp ▸ he)
  obtain ⟨found, hf, howing⟩ := hstamps.owed hm hcarries
  rw [htx] at hf
  cases hf
  rwa [hmatches.owing_eq_writeSet (by rw [hactive]; rfl)] at howing

/-- A step of a transaction that has yet to look at a chain, if it is not rolled back: it looks at
the chain, or still has to. -/
theorem Transition.owes (ht : Transition conflictKey s taken s') (hagrees : s.Agrees)
    (hkeys : conflictKey row ≠ none ∧ conflictKey chain = conflictKey row)
    (hkeyed : chain ∈ s.store.keys) (htx : s.store.txs id = some tx)
    (howes : tx.commitState.Owes row chain) (htx' : s'.store.txs id = some tx')
    (halive : tx'.state ≠ .aborted) :
    tx'.commitState.Owes row chain ∨ tx.session = some ⟨chain, .validate, .done false⟩ := by
  by_cases hactor : taken.actor = some id
  · cases ht with
    | beginTx | tick => cases hactor
    | wait hf hstate | commitReadOnly hf hstate | resolved hf hstate
    | abandon hf hstate | commitEnd hf hstate | rewrite hf hstate
    | finishAbandoned hf hstate | finalizeCommit hf hstate | waited hf hstate
    | remove hf hstate | panic hf hstate | rollBack hf hstate
    | terminate hf hstate | validated hf hstate =>
      cases hactor
      rw [htx] at hf
      cases hf
      simp [hstate, Owes] at howes
    | fail hf hstate =>
      obtain ⟨-, rfl⟩ | ⟨-, rfl⟩ := hstate <;> cases hactor <;>
        obtain rfl := eq_of_modifyTx_self htx' hf <;> exact .inl trivial
    | prepare hf hss hactive =>
      cases hactor
      rw [htx] at hf
      cases hf
      obtain ⟨r, -, hmatches⟩ := hagrees.known htx
      simp [hmatches.initial hactive, Owes] at howes
    | @nextRow _ _ r' rows hf hstate =>
      cases hactor
      obtain rfl := eq_of_modifyTx_self htx' hf
      rw [htx] at hf
      cases hf
      left
      simp only [hstate, Owes, List.mem_cons, List.not_mem_nil, or_false] at howes
      obtain rfl | hmem := howes
      · obtain ⟨k, hk⟩ := Option.ne_none_iff_exists'.mp hkeys.1
        refine .inr ?_
        simp [chainsToCheck, hk, hkeyed, hkeys.2]
      · exact .inl hmem
    | @finishValidate _ _ r' conflict hf hss =>
      cases hactor
      obtain rfl := eq_of_modifyTx_self htx' hf
      rw [htx] at hf
      cases hf
      obtain ⟨r, -, hmatches⟩ := hagrees.known htx
      obtain ⟨rows, chains, hstate⟩ := Transaction.mayStart_validate.mp (hmatches.session _ hss)
      cases conflict with
      | true => exact .inl (by simp [hstate, Owes])
      | false =>
        simp only [hstate, Owes, List.mem_cons] at howes
        obtain hmem | rfl | hmem := howes
        · exact .inl (by simp [hstate, Owes, hmem])
        · exact .inr hss
        · exact .inl (by simp [hstate, Owes, hmem])
    | register hf hss =>
      obtain ⟨middle, hmiddle, rfl⟩ := modifyTx_txs_eq_some.mp htx'
      obtain ⟨old, ho, _, _, _, -, rfl⟩ := registerCommitDependency_touched hmiddle
      rw [htx] at ho
      cases ho
      left
      split <;> exact howes
    | notify hf =>
      obtain ⟨middle, hmiddle, rfl⟩ := modifyTx_txs_eq_some.mp htx'
      obtain ⟨old, ho, rfl⟩ := modifyTx_txs_eq_some.mp hmiddle
      rw [htx] at ho
      cases ho
      left
      split <;> split <;> exact howes
    | abort hf =>
      cases hactor
      obtain ⟨middle, -, rfl⟩ := modifyTx_txs_eq_some.mp htx'
      rw [if_pos rfl] at halive
      exact absurd rfl halive
    | finishTombstone hf | insert hf =>
      cases hactor
      rw [addVersion_modifyTx_txs] at htx'
      obtain rfl := eq_of_modifyTx_self htx' hf
      rw [htx] at hf
      cases hf
      exact .inl howes
    | _ hf =>
      cases hactor
      obtain rfl := eq_of_modifyTx_self htx' hf
      rw [htx] at hf
      cases hf
      exact .inl howes
  · obtain ⟨-, rfl, rfl⟩ | ⟨old, ho, _, _, _, -, rfl⟩ := ht.touched hactor htx'
    · obtain ⟨r, hr, -⟩ := hagrees.known htx
      exact absurd (hagrees.bound hr) (lt_irrefl _)
    · rw [htx] at ho
      cases ho
      exact .inl howes

variable {ts : Timestamp}

omit [DecidableEq RowId] in
/-- An end after a change of a record that does not concern it was there before. -/
theorem History.endOf_of_modify {history new : History RowId Row} {actor : TxId}
    {f : Record RowId Row → Record RowId Row} (he : new.endOf id = some ts)
    (hrs : new.records = (history.modify actor f).records)
    (hf : ∀ r, (f r).endTs = r.endTs) : history.endOf id = some ts := by
  obtain ⟨r', hr', hts⟩ := endOf_eq_some.mp he
  rw [hrs] at hr'
  obtain ⟨r, hr, rfl⟩ := modify_records_eq_some.mp hr'
  refine endOf_eq_some.mpr ⟨r, hr, ?_⟩
  split at hts
  · exact hf r ▸ hts
  · exact hts

/-- A transaction gets its end when it begins to commit. -/
theorem Transition.prepared (ht : Transition conflictKey s taken s')
    (he : s'.history.endOf id = some ts) (hnot : s.history.endOf id ≠ some ts) :
    (∃ tx tx', s.store.txs id = some tx ∧ tx.state = .active ∧ s'.store.txs id = some tx' ∧
      tx'.commitState = if tx.isReadOnly then .waitForDependencies else .commit tx.writeSet []) ∧
    ∀ row, s'.writes row id = s.writes row id := by
  cases ht with
  | @prepare actor tx htx hss hactive =>
    by_cases hactor : id = actor
    · subst hactor
      exact ⟨⟨tx, _, htx, hactive, modifyTx_self htx, rfl⟩,
        fun row => lastWrite_modify rfl (by simp) id row⟩
    · simp [History.endOf, History.modify, hactor] at he
      exact absurd he hnot
  | beginTx =>
    by_cases hnew : id = s.store.nextTx
    · simp [endOf, hnew] at he
    · simp [endOf, hnew] at he
      exact absurd he hnot
  | load =>
    unfold History.load at he
    split at he
    · exact absurd (endOf_of_modify he rfl (by simp)) hnot
    · exact absurd he hnot
  | finishDelete | finishTombstone | insert | commitReadOnly | commitEnd | abort =>
    exact absurd (endOf_of_modify he rfl (by simp)) hnot
  | _ => exact absurd he hnot

/-- A transaction that has yet to look at a chain is in the map as long as it is not rolled back. -/
theorem Transition.known_of_owes (ht : Transition conflictKey s taken s') (hagrees : s.Agrees)
    (htx : s.store.txs id = some tx) (howes : tx.commitState.Owes row chain)
    (halive : ¬ s'.history.Has .aborted id) :
    ∃ tx', s'.store.txs id = some tx' ∧ tx'.state ≠ .aborted := by
  have hagrees' := hagrees.step ht
  obtain ⟨r, hr, hmatches⟩ := hagrees.known htx
  obtain ⟨r', hr', -⟩ := (ht.evolves hagrees).records hr
  have hpreparing : ∃ endTs, tx.state = .preparing endTs := by
    have hfits := hmatches.commitState
    cases hs : tx.commitState <;> simp_all [Owes, Fits]
  have hpending : r.outcome = .pending :=
    hagrees.pending htx (TransactionState.isRollbackable_iff.mpr (.inr hpreparing)) hr
  cases htx' : s'.store.txs id with
  | some tx' =>
    refine ⟨tx', rfl, fun haborted => ?_⟩
    obtain ⟨found, hf, hmatches'⟩ := hagrees'.known htx'
    have hmatch := hmatches'.state
    rw [haborted] at hmatch
    exact halive ⟨found, hf, hmatch⟩
  | none =>
    -- it would be decided, and it is not about to commit
    have hdone := hagrees'.gone hr' htx'
    obtain ⟨-, hpending'⟩ | ⟨found, hf, -, hcases⟩ := ht.record_origin hr'
    · exact absurd hpending' hdone
    rw [hr] at hf
    cases hf
    obtain hsame | ⟨haborted, -⟩ | ⟨-, found, hf, hs⟩ := hcases
    · exact absurd (hsame.trans hpending) hdone
    · exact absurd ⟨r', hr', haborted⟩ halive
    · rw [htx] at hf
      cases hf
      obtain hs | ⟨hs, -⟩ := hs <;> simp [hs, Owes] at howes

omit [DecidableEq Key] in
/-- A conflict between transactions that had ended was there before. -/
theorem System.Conflict.earlier (h : s'.Conflict conflictKey id other row chain)
    (hagrees : s.Agrees) (hev : s.history.Evolves s.store.clock s'.history)
    (he : s.history.endOf id = some ts) : s.Conflict conflictKey id other row chain := by
  obtain ⟨record, hrecord, hts⟩ := endOf_eq_some.mp he
  obtain ⟨tsOther, ts', hother, hid, hlt⟩ := h.ends
  rw [hev.endOf he] at hid
  cases hid
  have hother' := hev.endOf_of_le hother (hlt.le.trans (hagrees.end_le hrecord hts))
  constructor
  case keys => exact h.keys
  case writes =>
    have hsame : s'.writes row id = s.writes row id := hev.lastWrite (by simp [he])
    exact hsame ▸ h.writes
  case writes' =>
    have hsame : s'.writes chain other = s.writes chain other := hev.lastWrite (by simp [hother'])
    exact hsame ▸ h.writes'
  case ends => exact ⟨tsOther, ts, hother', he, hlt⟩
  case overlap => exact fun hb => h.overlap (hev.before hb)

omit [DecidableEq Key] in
/-- A validation that passes contradicts a conflict between survivors. -/
theorem System.Isolation.not_passed (h : s.Isolation) (hagrees : s.Agrees) (hchecks : s.Checks)
    (hviable : s.history.Viable sv) (hx : other ∈ sv)
    (hconflict : s.Conflict conflictKey id other row chain) (htx : s.store.txs id = some tx) :
    tx.session ≠ some ⟨chain, .validate, .done false⟩ := by
  intro hss
  obtain ⟨ts, ts', he, he', hlt⟩ := hconflict.ends
  have hne : other ≠ id := by
    rintro rfl
    rw [he] at he'
    exact hlt.ne (Option.some.inj he')
  obtain ⟨v, hm, hstamp⟩ := h.present hviable hx hconflict.writes'
  have hpasses := hchecks.finds hagrees htx hss rfl v hm sv hviable other
    hx hne hstamp ts he (by rwa [he'])
  obtain ⟨r, hr, -⟩ := hagrees.known htx
  obtain ⟨found, hf, hts⟩ := endOf_eq_some.mp he
  refine hconflict.overlap ⟨ts, he, lt_of_le_of_ne (not_lt.mp hpasses) ?_⟩
  intro heq
  have heq : ts = r.beginTs := heq.trans (beginOf_eq hr)
  exact hagrees.begin_ne_end hr hf (heq ▸ hts)

theorem System.Validates.step (h : s.Validates conflictKey) (hagrees : s.Agrees)
    (hstamps : s.Stamps) (hisolation : s.Isolation) (hchecks : s.Checks)
    (ht : Transition conflictKey s taken s') : s'.Validates conflictKey := by
  have hev := ht.evolves hagrees
  constructor
  intro sv id x r chain hviable' hid hx hconflict
  have hviable := hviable'.earlier hev
  obtain ⟨ts, ts', he, he', hlt⟩ := hconflict.ends
  by_cases hended : s.history.endOf id = some ts'
  · have ho := hconflict.earlier hagrees hev hended
    obtain ⟨tx, htx, howes⟩ := h.owes hviable hid hx ho
    obtain ⟨v, hm, -⟩ := hisolation.present hviable hx ho.writes'
    obtain ⟨tx', htx', halive⟩ := ht.known_of_owes hagrees htx howes fun haborted =>
      hviable'.aborted haborted hid
    obtain hstill | hpassed := ht.owes hagrees hconflict.keys (hstamps.keyed hm) htx howes htx'
      halive
    · exact ⟨tx', htx', hstill⟩
    · exact absurd hpassed (hisolation.not_passed hagrees hchecks hviable hx ho htx)
  · -- it begins to commit, and all that it wrote is to be validated
    obtain ⟨⟨tx, tx', htx, hactive, htx', hcommit⟩, hwrites⟩ := ht.prepared he' hended
    have hm := hisolation.mem_writeSet hagrees hstamps hviable hid (hwrites r ▸ hconflict.writes)
      htx hactive
    have hwrote : tx.isReadOnly = false := by
      cases hset : tx.writeSet <;> simp_all [Transaction.isReadOnly]
    refine ⟨tx', htx', ?_⟩
    rw [hcommit, hwrote]
    exact .inl hm

end Step

end Turso.Mvcc
