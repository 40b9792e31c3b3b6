import Turso.Mvcc.Edges
import Turso.Mvcc.Locks
import Turso.Mvcc.Speculation

/-!
# What a transaction took for granted

What a transaction relied on is settled: the edge is registered, or the other transaction has
committed, or the transaction was told to abort; only the check that is under way may still owe a
registration (`System.Reliance`).  A transaction leaves `WaitForDependencies` when all its edges
are resolved and it was not told to abort, so all that it relied on has committed.
-/

namespace Turso.Mvcc

open MvStore List

variable {RowId Row Key : Type} [DecidableEq RowId] [DecidableEq Key]

/-- The transaction has the outcome. -/
def History.Has (history : History RowId Row) (outcome : Outcome) (id : TxId) : Prop :=
  ∃ record, history.records id = some record ∧ record.outcome = outcome

variable (s : System RowId Row)

/-- What the transaction relied on is settled, up to the registration that is due. -/
structure System.Secures (id : TxId) (tx : Transaction RowId Row) (relied : List TxId)
    (due : Option TxId) : Prop where
  conforms : ∀ session ∈ tx.session,
    session.check.Conforms (registration tx.beginTs (s.store.rows session.row)) due
  owing : ∀ other ∈ due, other ∈ relied ∧
    ∃ session ∈ tx.session, ∃ version ∈ s.store.rows session.row, version.Carries (.txId other)
  settled : ∀ other ∈ relied, tx.abortNow ∨ (id, other) ∈ s.history.registered ∨
    s.history.Has .committed other ∨ other ∈ due

structure System.Reliance : Prop where
  ended : ∀ {id record other}, s.history.records id = some record → other ∈ record.relied →
    ∃ record' endTs, s.history.records other = some record' ∧ record'.endTs = some endTs ∧
      endTs < record.beginTs
  relied : ∀ {id other}, (id, other) ∈ s.history.registered →
    ∃ record, s.history.records id = some record ∧ other ∈ record.relied
  secured : ∀ {id tx record}, s.store.txs id = some tx → s.history.records id = some record →
    ∃ due, s.Secures id tx record.relied due
  doomed : ∀ {id other tx}, (id, other) ∈ s.history.registered → s.history.Has .aborted other →
    s.store.txs id = some tx → tx.abortNow
  resolved : ∀ {id tx}, s.store.txs id = some tx → tx.commitState = .dependenciesResolved →
    s.history.unresolved id = []
  logged : ∀ {id tx record other}, s.store.txs id = some tx → tx.commitState = .logicalLog →
    s.history.records id = some record → other ∈ record.relied → s.history.Has .committed other
  committed : ∀ {id record other}, s.history.records id = some record →
    record.outcome = .committed → other ∈ record.relied → s.history.Has .committed other

omit [DecidableEq RowId] in
theorem reliance_empty : (System.empty : System RowId Row).Reliance := by
  constructor <;> simp [System.empty, empty, History.empty]

section Step
variable {conflictKey : RowId → Option Key} {s s' : System RowId Row} {taken : Step RowId Row}
  {id : TxId} {tx tx' : Transaction RowId Row}
variable {record' record : Record RowId Row} {other : TxId}

omit [DecidableEq RowId] in
theorem History.Evolves.has {clock : Timestamp} {old new : History RowId Row} {outcome : Outcome}
    (h : old.Evolves clock new) (hdone : outcome ≠ .pending) (hhas : old.Has outcome id) :
    new.Has outcome id := by
  obtain ⟨r, hr, rfl⟩ := hhas
  obtain ⟨r', hr', hev⟩ := h.records hr
  exact ⟨r', hr', hev.outcome hdone⟩

section
variable (ht : Transition conflictKey s taken s')
include ht

/-- Where a record after a step comes from: what was relied on is extended by loads, the outcome is
set by the two ways to commit and by an abort. -/
theorem Transition.record_origin (hr' : s'.history.records id = some record') :
    record'.relied = [] ∧ record'.outcome = .pending ∨
      ∃ record, s.history.records id = some record ∧
        (record'.relied = record.relied ∨ taken = .load id) ∧
        (record'.outcome = record.outcome ∨ record'.outcome = .aborted ∧ taken = .abort id ∨
          record'.outcome = .committed ∧ ∃ tx, s.store.txs id = some tx ∧
            (tx.commitState = .logicalLog ∨
              tx.commitState = .dependenciesResolved ∧ tx.abortNow = false)) := by
  cases ht with
  | beginTx =>
    obtain ⟨-, rfl⟩ | ⟨-, ho⟩ := PartialMap.update_eq_some hr'
    · exact .inl ⟨rfl, rfl⟩
    · exact .inr ⟨record', ho, .inl rfl, .inl rfl⟩
  | load =>
    unfold History.load at hr'
    split at hr'
    · obtain ⟨record, hr, rfl⟩ := History.modify_records_eq_some.mp hr'
      refine .inr ⟨record, hr, ?_⟩
      split
      next hid => exact ⟨.inr (hid ▸ rfl), .inl rfl⟩
      next => exact ⟨.inl rfl, .inl rfl⟩
    · exact .inr ⟨record', hr', .inl rfl, .inl rfl⟩
  | finishDelete | finishTombstone | insert | prepare =>
    obtain ⟨record, hr, rfl⟩ := History.modify_records_eq_some.mp hr'
    refine .inr ⟨record, hr, ?_⟩
    split <;> exact ⟨.inl rfl, .inl rfl⟩
  | abort htx =>
    obtain ⟨record, hr, rfl⟩ := History.modify_records_eq_some.mp hr'
    refine .inr ⟨record, hr, ?_⟩
    split
    next hid => exact ⟨.inl rfl, .inr (.inl ⟨rfl, hid ▸ rfl⟩)⟩
    next => exact ⟨.inl rfl, .inl rfl⟩
  | commitReadOnly htx hs habort =>
    obtain ⟨record, hr, rfl⟩ := History.modify_records_eq_some.mp hr'
    refine .inr ⟨record, hr, ?_⟩
    split
    next hid => exact ⟨.inl rfl, .inr (.inr ⟨rfl, _, hid ▸ htx, .inr ⟨hs, habort⟩⟩)⟩
    next => exact ⟨.inl rfl, .inl rfl⟩
  | commitEnd htx hs =>
    obtain ⟨record, hr, rfl⟩ := History.modify_records_eq_some.mp hr'
    refine .inr ⟨record, hr, ?_⟩
    split
    next hid => exact ⟨.inl rfl, .inr (.inr ⟨rfl, _, hid ▸ htx, .inl hs⟩)⟩
    next => exact ⟨.inl rfl, .inl rfl⟩
  | _ => exact .inr ⟨record', hr', .inl rfl, .inl rfl⟩

theorem Transition.relied_eq (hagrees : s.Agrees) (htaken : taken ≠ .load id)
    (hr : s.history.records id = some record) (hr' : s'.history.records id = some record')
    : record'.relied = record.relied := by
  obtain ⟨hno, -⟩ | ⟨found, hf, hrelied, -⟩ := ht.record_origin hr'
  · obtain ⟨found, hf, hev⟩ := (ht.evolves hagrees).records hr
    rw [hr'] at hf
    cases hf
    have ho : record.relied = [] := subset_nil.mp (hno ▸ hev.relied)
    rw [hno, ho]
  · rw [hr] at hf
    cases hf
    exact hrelied.resolve_right htaken

/-- An edge after a step was there before, or a preparing transaction takes it. -/
theorem Transition.registered_origin :
    s.history.registered ⊆ s'.history.registered ∧ s.history.notified ⊆ s'.history.notified ∧
    ∀ {edge}, edge ∈ s'.history.registered → edge ∈ s.history.registered ∨
      taken = .register edge.1 ∧ (∃ tx r purpose next, s.store.txs edge.1 = some tx ∧
          tx.session = some ⟨r, purpose, .ask (.register edge.2) next⟩) ∧
        ∃ dependedOn endTs, s.store.txs edge.2 = some dependedOn ∧
          dependedOn.state = .preparing endTs := by
  cases ht with
  | load =>
    simp only [History.load_registered, History.load_notified]
    exact ⟨fun _ h => h, fun _ h => h, .inl⟩
  | @register id tx r purpose x next htx hss =>
    obtain ⟨dependedOn, hx, ⟨endTs, hpreparing⟩, -, -, hregistered⟩ |
      ⟨doomed, -, hregistered, -⟩ := register_cases s id x
    · simp only [hregistered]
      refine ⟨subset_cons_self .., fun _ h => h, fun hmem => ?_⟩
      obtain rfl | hmem := mem_cons.mp hmem
      · exact .inr ⟨rfl, ⟨tx, r, purpose, next, htx, hss⟩, dependedOn, endTs, hx, hpreparing⟩
      · exact .inl hmem
    · simp only [hregistered]
      exact ⟨fun _ h => h, fun _ h => h, .inl⟩
  | notify => exact ⟨fun _ h => h, subset_cons_self .., .inl⟩
  | _ => exact ⟨fun _ h => h, fun _ h => h, .inl⟩

/-- Unless a dependency is registered, none becomes unresolved. -/
theorem Transition.unresolved_subset (htaken : taken ≠ .register id) :
    s'.history.unresolved id ⊆ s.history.unresolved id := by
  obtain ⟨-, hnotified, horigin⟩ := ht.registered_origin
  intro edge hm
  simp only [History.unresolved, mem_filter, decide_eq_true_eq] at hm ⊢
  obtain ⟨hm, rfl, hopen⟩ := hm
  refine ⟨(horigin hm).resolve_right fun hnew => htaken hnew.1, rfl, ?_⟩
  exact fun hm => hopen (hnotified hm)

end

variable {relied : List TxId} {due : Option TxId}

omit [DecidableEq RowId] in
theorem System.Secures.due_eq_none (h : s.Secures id tx relied due) (hss : tx.session = none) :
    due = none := by
  cases due with
  | none => rfl
  | some x =>
    obtain ⟨-, ss, hopen, -⟩ := h.owing x rfl
    simp [hss] at hopen

omit [DecidableEq RowId] in
theorem System.Secures.mono (h : s.Secures id tx relied due) (hbg : tx'.beginTs = tx.beginTs)
    (habort : tx.abortNow → tx'.abortNow) (hss : tx'.session = tx.session)
    (hrows : ∀ ss ∈ tx.session, s'.store.rows ss.row = s.store.rows ss.row)
    (hregistered : s.history.registered ⊆ s'.history.registered)
    (hcom : ∀ {other}, s.history.Has .committed other → s'.history.Has .committed other) :
    s'.Secures id tx' relied due := by
  constructor
  case conforms =>
    intro ss hopen
    rw [hss] at hopen
    rw [hbg, hrows ss hopen]
    exact h.conforms ss hopen
  case owing =>
    intro other hdue
    obtain ⟨hrelied, ss, hopen, v, hm, hcarries⟩ := h.owing other hdue
    exact ⟨hrelied, ss, hss ▸ hopen, v, hrows ss hopen ▸ hm, hcarries⟩
  case settled =>
    intro other hrelied
    exact (h.settled other hrelied).imp habort
      (Or.imp (fun hm => hregistered hm) (Or.imp_left hcom))

/-- A state that is loaded says what the record says. -/
theorem System.Agrees.of_preparing (h : s.Agrees) {endTs : Timestamp}
    (hs : s.store.lookupTxState other = some (.preparing endTs)) :
    ∃ record, s.history.records other = some record ∧ record.endTs = some endTs := by
  unfold lookupTxState at hs
  split at hs
  next dependedOn hx =>
    obtain ⟨record, hr, hmatches⟩ := h.known hx
    have hmatch := hmatches.state
    rw [Option.some.inj hs] at hmatch
    exact ⟨record, hr, hmatch.1⟩
  next => simp at hs

/-- No transaction begins when another one ends. -/
theorem System.Agrees.answer_possible (h : s.Agrees) (htx : s.store.txs id = some tx)
    (x : TxId) : s.store.lookupTxState x ≠ some (.preparing tx.beginTs) := by
  intro hs
  obtain ⟨r, hr, hmatches⟩ := h.known htx
  obtain ⟨r', hr', he⟩ := h.of_preparing hs
  exact h.begin_ne_end hr hr' (hmatches.beginTs ▸ he)

omit [DecidableEq RowId] in
/-- What is recorded when a state is loaded. -/
theorem History.load_relied {history : History RowId Row} {beginTs : Timestamp}
    {answer : Option TransactionState} (hr : history.records id = some record)
    (hr' : (history.load id beginTs other answer).records id = some record') :
    record'.relied = if speculates beginTs answer then other :: record.relied else record.relied := by
  unfold History.load at hr'
  split at hr'
  next hspeculates =>
    obtain ⟨found, hf, rfl⟩ := History.modify_records_eq_some.mp hr'
    rw [hr] at hf
    cases hf
    simp [hspeculates]
  next hspeculates =>
    rw [hr] at hr'
    cases hr'
    simp [hspeculates]

section
variable (h : s.Reliance) (hagrees : s.Agrees)
include h hagrees

/-- A registration settles what was taken for granted. -/
theorem System.Reliance.settled_of_register (hedges : s.Edges) (htx : s.store.txs id = some tx)
    (hrecord : s.history.records id = some record) (hrelied : other ∈ record.relied)
    {dependedOn : Transaction RowId Row} (hother : s.store.txs other = some dependedOn)
    {ss : Session RowId Row}
    (hs' : s' = ⟨(s.store.registerCommitDependency id other).resume id ss,
      s.history.register id other (s.store.txs other)⟩) (htx' : s'.store.txs id = some tx') :
    tx'.abortNow ∨ (id, other) ∈ s'.history.registered ∨ s'.history.Has .committed other := by
  subst hs'
  obtain ⟨-, -, -, -, -, hregistered⟩ | ⟨doomed, htxs, hregistered, hcases⟩ :=
    register_cases s id other
  · exact .inr (.inl (by simp [hregistered]))
  obtain ⟨middle, hmiddle, rfl⟩ := modifyTx_txs_eq_some.mp htx'
  rw [htxs, modifyTx_self htx] at hmiddle
  cases hmiddle
  obtain ⟨record', hrecord', hmatches⟩ := hagrees.known hother
  have hmatch := hmatches.state
  obtain hwaits | hdoomed | hactive | ⟨ts, hcom⟩ := hcases hother
  · refine .inr (.inl ?_)
    rw [hregistered]
    exact (hedges.waiting hother (mem_append_left _ hwaits)).1
  · exact .inl (by simp [hdoomed])
  · -- a transaction that is relied on has its end timestamp
    obtain ⟨found, endTs, hf, he, -⟩ := h.ended hrecord hrelied
    rw [hrecord'] at hf
    cases hf
    rw [hactive] at hmatch
    simp [hmatch.1] at he
  · rw [hcom] at hmatch
    exact .inr (.inr ⟨record', by rw [hregistered]; exact hrecord', hmatch.2⟩)

theorem System.Reliance.secured_step (hstamps : s.Stamps) (hedges : s.Edges) (hlocks : s.Locks)
    (ht : Transition conflictKey s taken s') (htx' : s'.store.txs id = some tx')
    (hrecord' : s'.history.records id = some record') :
    ∃ due, s'.Secures id tx' record'.relied due := by
  have hev := ht.evolves hagrees
  have hcom : ∀ {other}, s.history.Has .committed other → s'.history.Has .committed other :=
    hev.has (by simp)
  have hregistered := ht.registered_origin.1
  obtain ⟨-, rfl, rfl⟩ | ⟨tx, htx, hfollows, hmoves⟩ := ht.entry_origin htx'
  · -- a transaction that begins has relied on nothing
    obtain ⟨hno, -⟩ | ⟨record, hrecord, -⟩ := ht.record_origin hrecord'
    · exact ⟨none, by simp, by simp, by simp [hno]⟩
    · exact absurd (hagrees.bound hrecord) (lt_irrefl _)
  obtain ⟨record, hrecord, -⟩ := hagrees.known htx
  obtain ⟨due, hsecures⟩ := h.secured htx hrecord
  have hbg := hfollows.beginTs
  have hsettled : ∀ other ∈ record.relied, tx'.abortNow ∨ (id, other) ∈ s'.history.registered ∨
      s'.history.Has .committed other ∨ other ∈ due := fun other hrelied =>
    (hsecures.settled other hrelied).imp hfollows.abortNow
      (Or.imp (fun hm => hregistered hm) (Or.imp_left hcom))
  generalize hss' : tx'.session = ss' at hmoves
  cases hmoves with
  | stay htaken hss =>
    rw [ht.relied_eq hagrees htaken.1 hrecord hrecord']
    refine ⟨due, hsecures.mono hbg hfollows.abortNow (hss'.trans hss.symm) ?_ hregistered hcom⟩
    intro ss hopen
    refine ht.rows_of_session hagrees hlocks htx hopen htx' ?_
    simp [hss', ← hss, Option.mem_def.mp hopen]
  | @start r purpose htaken hss hrows hhistory =>
    obtain rfl := hsecures.due_eq_none hss
    rw [ht.relied_eq hagrees (htaken ▸ nofun) hrecord hrecord']
    refine ⟨none, ?_, nofun, hsettled⟩
    intro ss hopen
    rw [hss'] at hopen
    cases hopen
    rw [hbg, hrows]
    exact check_conforms id tx (s.store.rows r) purpose
  | @load r purpose other next htaken hss hhistory =>
    have hrows := ht.rows_of_session hagrees hlocks htx hss htx' (by simp [hss'])
    obtain ⟨hallowed, hnx⟩ := hsecures.conforms _ hss
    obtain rfl : due = none := by
      cases due with
      | none => rfl
      | some other => cases hallowed
    rw [History.load_relied hrecord (hhistory ▸ hrecord')]
    refine ⟨if speculates tx.beginTs (s.store.lookupTxState other) then some other else none,
      ?_, ?_, ?_⟩
    · intro ss hopen
      rw [hss'] at hopen
      cases hopen
      rw [hbg, hrows]
      exact hnx _ (hagrees.answer_possible htx other)
    · intro due hdue
      split at hdue
      next hspeculates =>
        cases hdue
        obtain ⟨version, hm, hcarries⟩ := hallowed
        refine ⟨by simp [hspeculates], _, hss', version, ?_, hcarries⟩
        exact hrows ▸ hm
      next => cases hdue
    · intro on hrelied
      split at hrelied
      next hspeculates =>
        rw [if_pos hspeculates]
        obtain rfl | hrelied := mem_cons.mp hrelied
        · exact .inr (.inr (.inr rfl))
        · exact (hsettled on hrelied).imp_right (Or.imp_right (Or.imp_right nofun))
      next hspeculates =>
        rw [if_neg hspeculates]
        exact hsettled on hrelied
  | @inspect r purpose other next htaken hss =>
    have hrows := ht.rows_of_session hagrees hlocks htx hss htx' (by simp [hss'])
    obtain ⟨hallowed, hnx⟩ := hsecures.conforms _ hss
    obtain rfl : due = none := by
      cases due with
      | none => rfl
      | some other => cases hallowed
    rw [ht.relied_eq hagrees (htaken ▸ nofun) hrecord hrecord']
    refine ⟨none, ?_, nofun, hsettled⟩
    intro ss hopen
    rw [hss'] at hopen
    cases hopen
    rw [hbg, hrows]
    exact hnx _ trivial
  | @register r purpose other next htaken hss hs' =>
    have hrows := ht.rows_of_session hagrees hlocks htx hss htx' (by simp [hss'])
    obtain ⟨hallowed, hnx⟩ := hsecures.conforms _ hss
    obtain rfl : due = some other := by
      cases due with
      | none => cases hallowed
      | some due => exact congrArg some (Eq.symm hallowed)
    rw [ht.relied_eq hagrees (htaken ▸ nofun) hrecord hrecord']
    refine ⟨none, ?_, nofun, ?_⟩
    · intro ss hopen
      rw [hss'] at hopen
      cases hopen
      rw [hbg, hrows]
      exact hnx () trivial
    · intro on hrelied
      obtain hdone | hdone | hdone | hdue := hsettled on hrelied
      · exact .inl hdone
      · exact .inr (.inl hdone)
      · exact .inr (.inr (.inl hdone))
      cases hdue
      obtain ⟨-, ss, hopen, version, hm, hcarries⟩ := hsecures.owing other rfl
      obtain ⟨dependedOn, hother, -⟩ := hstamps.owed hm hcarries
      exact (h.settled_of_register hagrees hedges htx hrecord hrelied hother hs' htx').imp_right
        (Or.imp_right .inl)
  | @finish r purpose finding htaken hss =>
    obtain rfl : due = none := hsecures.conforms _ hss
    rw [ht.relied_eq hagrees (htaken ▸ nofun) hrecord hrecord']
    refine ⟨none, ?_, nofun, hsettled⟩
    intro ss hopen
    simp [hss'] at hopen

/-- A transaction with all its edges resolved that was not told to abort relied on committed
transactions only. -/
theorem System.Reliance.of_resolved (hedges : s.Edges) (htx : s.store.txs id = some tx)
    (hstate : tx.commitState = .dependenciesResolved) (habort : tx.abortNow = false)
    (hrecord : s.history.records id = some record) (hrelied : other ∈ record.relied) :
    s.history.Has .committed other := by
  obtain ⟨due, hsecures⟩ := h.secured htx hrecord
  have hss := hagrees.session_eq_none htx (by simp [hstate]) (by simp [hstate])
  obtain rfl := hsecures.due_eq_none hss
  obtain hdone | hmem | hcommitted | hdue := hsecures.settled other hrelied
  · simp [habort] at hdone
  · have hnotified : (id, other) ∈ s.history.notified := by
      by_contra hopen
      have hunresolved : (id, other) ∈ s.history.unresolved id := by
        simp [History.unresolved, hmem, hopen]
      simp [h.resolved htx hstate] at hunresolved
    obtain ⟨record', hrecord', hdone⟩ := hedges.decided hnotified
    cases houtcome : record'.outcome with
    | pending => exact absurd houtcome hdone
    | committed => exact ⟨record', hrecord', houtcome⟩
    | aborted =>
      have hdoomed := h.doomed hmem ⟨record', hrecord', houtcome⟩ htx
      simp [habort] at hdoomed
  · exact hcommitted
  · cases hdue

end

/-- Who depends on a transaction that aborts is told to abort. -/
theorem System.Edges.told (h : s.Edges) (hagrees : s.Agrees)
    (ht : Transition conflictKey s (.abort id) s') {dependent : TxId}
    (hm : (dependent, id) ∈ s.history.registered)
    (htx' : s'.store.txs dependent = some tx') : tx'.abortNow := by
  cases ht with
  | fail htx hs => simp at hs
  | abort htx hss hs =>
    have hwaits := h.mem_commitDepSet hagrees htx hs hm
    obtain ⟨middle, hmiddle, rfl⟩ := modifyTx_txs_eq_some.mp htx'
    obtain ⟨old, ho, rfl⟩ := tellToAbort_txs_eq_some.mp hmiddle
    split <;> rfl

/-- Who loads a state or registers a dependency has a session. -/
theorem Transition.session_of_ask (ht : Transition conflictKey s taken s')
    (htaken : taken = .load id ∨ taken = .register id) :
    ∃ tx, s.store.txs id = some tx ∧ tx.session ≠ none := by
  cases ht with
  | load htx hss | register htx hss =>
    obtain ⟨⟨⟩⟩ | ⟨⟨⟩⟩ := htaken
    exact ⟨_, htx, by simp [hss]⟩
  | fail htx hs => obtain ⟨-, rfl⟩ | ⟨-, rfl⟩ := hs <;> simp at htaken
  | _ => simp at htaken

theorem System.Reliance.step (h : s.Reliance) (hagrees : s.Agrees) (hstamps : s.Stamps)
    (hedges : s.Edges) (hlocks : s.Locks) (ht : Transition conflictKey s taken s') :
    s'.Reliance := by
  have hev := ht.evolves hagrees
  have hcom : ∀ {other}, s.history.Has .committed other → s'.history.Has .committed other :=
    hev.has (by simp)
  constructor
  case ended =>
    intro id record' other hrecord' hrelied
    obtain ⟨hno, -⟩ | ⟨record, hrecord, hsame, -⟩ := ht.record_origin hrecord'
    · simp [hno] at hrelied
    -- who is relied on has an end before the begin, from the load on
    have hended : ∃ old endTs, s.history.records other = some old ∧ old.endTs = some endTs ∧
        endTs < record.beginTs := by
      obtain hsame | rfl := hsame
      · exact h.ended hrecord (hsame ▸ hrelied)
      cases ht with
      | fail htx hstate => simp at hstate
      | @load _ tx r purpose on next htx hss =>
        rw [History.load_relied hrecord hrecord'] at hrelied
        split at hrelied
        next hspeculates =>
          obtain rfl | hrelied := mem_cons.mp hrelied
          · have hmatches := hagrees.matches htx hrecord
            obtain ⟨endTs, hpreparing, hlt⟩ := speculates_eq_true.mp hspeculates
            obtain ⟨old, ho, he⟩ := hagrees.of_preparing hpreparing
            exact ⟨old, endTs, ho, he, hmatches.beginTs ▸ hlt⟩
          · exact h.ended hrecord hrelied
        next => exact h.ended hrecord hrelied
    obtain ⟨old, endTs, ho, he, hlt⟩ := hended
    obtain ⟨new, hnew, hevolved⟩ := hev.records ho
    obtain ⟨found, hf, hbg⟩ := hev.records hrecord
    rw [hrecord'] at hf
    cases hf
    exact ⟨new, endTs, hnew, hevolved.endTs he, hbg.beginTs ▸ hlt⟩
  case relied =>
    intro id other hm
    obtain hm | ⟨-, ⟨tx, r, purpose, next, htx, hss⟩, -⟩ := ht.registered_origin.2.2 hm
    · obtain ⟨record, hrecord, hrelied⟩ := h.relied hm
      obtain ⟨record', hrecord', hrs⟩ := hev.records hrecord
      exact ⟨record', hrecord', hrs.relied hrelied⟩
    · obtain ⟨record, hrecord, -⟩ := hagrees.known htx
      obtain ⟨due, hsecures⟩ := h.secured htx hrecord
      obtain ⟨hallowed, -⟩ := hsecures.conforms _ hss
      cases due with
      | none => cases hallowed
      | some due =>
        obtain rfl : other = due := hallowed
        obtain ⟨record', hrecord', hrs⟩ := hev.records hrecord
        exact ⟨record', hrecord', hrs.relied (hsecures.owing other rfl).1⟩
  case secured => exact fun htx' hrecord' =>
    h.secured_step hagrees hstamps hedges hlocks ht htx' hrecord'
  case doomed =>
    intro id other tx' hm habort htx'
    obtain hm | ⟨htaken, -, dependedOn, endTs, hother, hpreparing⟩ := ht.registered_origin.2.2 hm
    · obtain ⟨record', hrecord', houtcome⟩ := habort
      obtain ⟨-, hpending⟩ | ⟨record, hrecord, -, hsame | ⟨-, rfl⟩ | ⟨hcom, -⟩⟩ :=
        ht.record_origin hrecord'
      · simp [houtcome] at hpending
      · obtain ⟨-, rfl, -⟩ | ⟨tx, htx, hfollows, -⟩ := ht.entry_origin htx'
        · obtain ⟨record, hrecord⟩ := hedges.known hm
          exact absurd (hagrees.bound hrecord) (lt_irrefl _)
        · exact hfollows.abortNow (h.doomed hm ⟨record, hrecord, hsame ▸ houtcome⟩ htx)
      · exact hedges.told hagrees ht hm htx'
      · simp [houtcome] at hcom
    · -- a new edge leads to a transaction that is preparing
      obtain ⟨record', hrecord', houtcome⟩ := habort
      obtain ⟨-, hpending⟩ | ⟨record, hrecord, -, hsame | ⟨-, rfl⟩ | ⟨hcom, -⟩⟩ :=
        ht.record_origin hrecord'
      · simp [houtcome] at hpending
      · have hpending := hagrees.pending hother (by rw [hpreparing]; rfl) hrecord
        simp [← hsame, houtcome] at hpending
      · cases htaken
      · simp [houtcome] at hcom
  case resolved =>
    intro id tx' htx' hstate
    obtain ⟨-, -, rfl⟩ | ⟨tx, htx, hfollows, -⟩ := ht.entry_origin htx'
    · cases hstate
    have hcases := hfollows.resolved hstate
    have hno : s.history.unresolved id = [] := by
      obtain ho | ⟨-, hcounter⟩ := hcases
      · exact h.resolved htx ho
      · rw [hedges.counter htx] at hcounter
        exact length_eq_zero_iff.mp (by omega)
    have hss : tx.session = none := by
      obtain ho | ⟨ho, -⟩ := hcases <;>
        exact hagrees.session_eq_none htx (by simp [ho]) (by simp [ho])
    refine subset_nil.mp (hno ▸ ht.unresolved_subset fun htaken => ?_)
    obtain ⟨found, hf, hopen⟩ := ht.session_of_ask (.inr htaken)
    simp_all
  case logged =>
    intro id tx' record' other htx' hstate hrecord' hrelied
    obtain ⟨-, -, rfl⟩ | ⟨tx, htx, hfollows, -⟩ := ht.entry_origin htx'
    · cases hstate
    have hcases := hfollows.logged hstate
    have hss : tx.session = none := by
      obtain ho | ⟨ho, -⟩ := hcases <;>
        exact hagrees.session_eq_none htx (by simp [ho]) (by simp [ho])
    obtain ⟨record, hrecord, -⟩ := hagrees.known htx
    have htaken : taken ≠ .load id := by
      intro htaken
      obtain ⟨found, hf, hopen⟩ := ht.session_of_ask (.inl htaken)
      simp_all
    rw [ht.relied_eq hagrees htaken hrecord hrecord'] at hrelied
    obtain ho | ⟨ho, habort⟩ := hcases
    · exact hcom (h.logged htx ho hrecord hrelied)
    · exact hcom (h.of_resolved hagrees hedges htx ho habort hrecord hrelied)
  case committed =>
    intro id record' other hrecord' houtcome hrelied
    obtain ⟨hno, -⟩ | ⟨record, hrecord, hsame, hcases⟩ := ht.record_origin hrecord'
    · simp [hno] at hrelied
    -- a transaction that loads a state is not committed by that
    have hrelied : other ∈ record.relied := by
      obtain hsame | htaken := hsame
      · exact hsame ▸ hrelied
      obtain ⟨tx, htx, hopen⟩ := ht.session_of_ask (.inl htaken)
      have hpending := hagrees.pending htx (hagrees.rollbackable_of_session htx hopen) hrecord
      obtain hsame | ⟨habort, -⟩ | ⟨-, found, hf, hstate⟩ := hcases
      · simp [← hsame, houtcome] at hpending
      · simp [houtcome] at habort
      · rw [htx] at hf
        cases hf
        obtain hstate | ⟨hstate, -⟩ := hstate <;>
          exact absurd (hagrees.session_eq_none htx (by simp [hstate]) (by simp [hstate])) hopen
    obtain hsame | ⟨habort, -⟩ | ⟨-, tx, htx, hlog | ⟨hresolved, habort⟩⟩ := hcases
    · exact hcom (h.committed hrecord (hsame ▸ houtcome) hrelied)
    · simp [houtcome] at habort
    · exact hcom (h.logged htx hlog hrecord hrelied)
    · exact hcom (h.of_resolved hagrees hedges htx hresolved habort hrecord hrelied)

end Step

end Turso.Mvcc
