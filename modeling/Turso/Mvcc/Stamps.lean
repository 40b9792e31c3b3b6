import Turso.Mvcc.Records

/-!
# Whose stamps the chains carry

What is recorded of a transaction only grows, and what it wrote is settled when it has its end
timestamp (`Record.Evolves`).  A stamp that is the id of a transaction stands for a transaction in
the map that still has to visit the chain, to rewrite or to undo it; a stamp that is a timestamp
stands for the committed transaction with that end (`System.Stamps`).
-/

namespace Turso.Mvcc

open Transaction MvStore List Subset

variable {RowId Row Key : Type} [DecidableEq RowId] [DecidableEq Key]
variable {record : Record RowId Row} {begins : Option TxTimestampOrId → Timestamp} {row : RowId}
  {f : Transaction RowId Row → Transaction RowId Row}

/-! ## What is recorded stays -/

structure Record.Evolves (old new : Record RowId Row) : Prop where
  beginTs : new.beginTs = old.beginTs
  endTs : ∀ {endTs}, old.endTs = some endTs → new.endTs = some endTs
  outcome : old.outcome ≠ .pending → new.outcome = old.outcome
  relied : old.relied ⊆ new.relied
  writes : old.endTs ≠ none → new.writes = old.writes

omit [DecidableEq RowId] in
theorem Record.Evolves.refl (record : Record RowId Row) : record.Evolves record :=
  ⟨rfl, id, fun _ => rfl, fun _ => id, fun _ => rfl⟩

/-- What was recorded at the time `clock` is still so later. -/
structure History.Evolves (clock : Timestamp) (old new : History RowId Row) : Prop where
  records : ∀ {id record}, old.records id = some record →
    ∃ record', new.records id = some record' ∧ record.Evolves record'
  ender : ∀ {ts id}, old.ender ts = some id → new.ender ts = some id
  earlier : ∀ {id record' endTs}, new.records id = some record' → record'.endTs = some endTs →
    endTs ≤ clock → ∃ record, old.records id = some record ∧ record.endTs = some endTs

section Evolves
variable {clock : Timestamp} {old new : History RowId Row} {id : TxId}

omit [DecidableEq RowId] in
theorem History.Evolves.of_eq (hrs : new.records = old.records) (hender : new.ender = old.ender) :
    History.Evolves clock old new :=
  ⟨fun hr => ⟨_, hrs ▸ hr, .refl _⟩, fun hts => hender ▸ hts, fun hr he _ => ⟨_, hrs ▸ hr, he⟩⟩

omit [DecidableEq RowId] in
/-- Something is recorded of one transaction, other than its end. -/
theorem History.Evolves.modify {f : Record RowId Row → Record RowId Row}
    (hrs : new.records = (old.modify id f).records) (hender : new.ender = old.ender)
    (hf : ∀ {record}, old.records id = some record →
      record.Evolves (f record) ∧ (f record).endTs = record.endTs) :
    History.Evolves clock old new := by
  constructor
  case ender => exact fun hts => hender ▸ hts
  case records =>
    intro other record hrecord
    rw [hrs]
    refine ⟨_, modify_records_eq_some.mpr ⟨record, hrecord, rfl⟩, ?_⟩
    split
    next hother => exact (hf (hother ▸ hrecord)).1
    next => exact .refl record
  case earlier =>
    intro other record' endTs hrecord' he _
    rw [hrs] at hrecord'
    obtain ⟨record, hrecord, rfl⟩ := modify_records_eq_some.mp hrecord'
    refine ⟨record, hrecord, ?_⟩
    split at he
    next hother => exact (hf (hother ▸ hrecord)).2 ▸ he
    next => exact he

end Evolves

section Step
variable {conflictKey : RowId → Option Key} {s s' : System RowId Row} {taken : Step RowId Row}
  {id : TxId} {tx : Transaction RowId Row}

section
variable (h : s.Agrees) (htx : s.store.txs id = some tx)
include h htx

theorem System.Agrees.active (hactive : tx.state = .active)
    (hr : s.history.records id = some record) :
    record.endTs = none ∧ record.outcome = .pending := by
  have hmatch := (h.matches htx hr).state
  rw [hactive] at hmatch
  exact hmatch

/-- A session other than for validation is that of an active transaction. -/
theorem System.Agrees.active_of_session {ss : Session RowId Row}
    (hss : tx.session = some ss) (hpurpose : ss.purpose ≠ .validate) :
    tx.state = .active := by
  obtain ⟨r, -, hmatches⟩ := h.known htx
  exact (mayStart_operation hpurpose).mp (hmatches.session _ hss)

theorem System.Agrees.evolves_write (hactive : tx.state = .active) (clock : Timestamp) (r : RowId)
    (v : Option Row) :
    s.history.Evolves clock (s.history.write id r v) := by
  refine .modify rfl rfl fun hr => ⟨?_, rfl⟩
  refine ⟨rfl, fun he => he, fun _ => rfl, fun _ hm => hm, fun he => ?_⟩
  exact absurd (h.active htx hactive hr).1 he

/-- A transaction that may still be rolled back has no outcome. -/
theorem System.Agrees.pending (ht : tx.state.isRollbackable)
    (hr : s.history.records id = some record) :
    record.outcome = .pending := by
  have hmatch := (h.matches htx hr).state
  cases hs : tx.state <;> simp_all [TransactionState.Matches, TransactionState.isRollbackable]

/-- The outcome of a transaction is decided once. -/
theorem System.Agrees.evolves_outcome (hs : tx.state.isRollbackable) (clock : Timestamp)
    (outcome : Outcome) :
    s.history.Evolves clock (s.history.modify id fun r => { r with outcome := outcome }) := by
  refine .modify rfl rfl fun hr => ⟨?_, rfl⟩
  refine ⟨rfl, fun he => he, fun hdone => ?_, fun _ hm => hm, fun _ => rfl⟩
  exact absurd (h.pending htx hs hr) hdone

end

theorem Transition.evolves (ht : Transition conflictKey s taken s') (h : s.Agrees) :
    s.history.Evolves s.store.clock s'.history := by
  cases ht with
  | beginTx =>
    constructor
    case ender => exact fun hts => hts
    case records =>
      intro id r hr
      have hid : id ≠ s.store.nextTx := by
        rintro rfl
        simp [h.records_nextTx] at hr
      exact ⟨r, by simpa [hid] using hr, .refl r⟩
    case earlier =>
      intro id r' endTs hr' he _
      obtain ⟨-, rfl⟩ | ⟨-, ho⟩ := PartialMap.update_eq_some hr'
      · cases he
      · exact ⟨r', ho, he⟩
  | @load id tx row purpose x next htx hss =>
    unfold History.load
    split
    · refine .modify rfl rfl fun _ => ⟨⟨rfl, fun he => he, fun _ => rfl, ?_, fun _ => rfl⟩, rfl⟩
      exact fun _ hm => mem_cons_of_mem _ hm
    · exact .of_eq rfl rfl
  | finishDelete htx hss | finishTombstone htx hss =>
    exact h.evolves_write htx (h.active_of_session htx hss (by simp)) _ _ _
  | insert htx hss hactive hvacant hlock => exact h.evolves_write htx hactive _ _ _
  | @prepare id tx htx hss hactive =>
    obtain ⟨r, hr, -⟩ := h.known htx
    have hopen := h.active htx hactive hr
    constructor
    case ender =>
      intro ts x hts
      have hne : ts ≠ s.store.clock + 1 := by
        rintro rfl
        obtain ⟨found, hf, he⟩ := h.ender_iff.mp hts
        exact Nat.not_succ_le_self _ (h.end_le hf he)
      exact (Function.update_of_ne hne ..).trans hts
    case records =>
      intro x found hf
      by_cases hx : x = id
      · subst hx
        rw [hr] at hf
        cases hf
        refine ⟨{ r with endTs := some (s.store.clock + 1) }, by simp [History.modify, hr], ?_⟩
        exact ⟨rfl, fun he => by simp [hopen.1] at he, fun _ => rfl, fun _ hm => hm,
          fun he => absurd hopen.1 he⟩
      · exact ⟨found, by simpa [History.modify, hx] using hf, .refl found⟩
    case earlier =>
      intro x r' endTs hr' he hle
      simp only [History.modify, hr, Option.map_some] at hr'
      obtain ⟨-, rfl⟩ | ⟨-, ho⟩ := PartialMap.update_eq_some hr'
      · cases he
        exact absurd hle (Nat.not_succ_le_self _)
      · exact ⟨r', ho, he⟩
  | commitReadOnly htx hs habort hreadOnly =>
    obtain ⟨endTs, hpreparing⟩ := h.preparing htx (.inl hs)
    exact h.evolves_outcome htx (by rw [hpreparing]; rfl) _ _
  | commitEnd htx hs =>
    obtain ⟨endTs, hpreparing⟩ := h.preparing htx (.inr hs)
    exact h.evolves_outcome htx (by rw [hpreparing]; rfl) _ _
  | abort htx hss hs => exact h.evolves_outcome htx hs _ _
  | _ => exact .of_eq rfl rfl

end Step

/-! ## Members of a chain after a step -/

section Chain
variable {v new : RowVersion Row} {versions : List (RowVersion Row)} {id : TxId}

section
variable (hnew : ∀ ts, new.beginning ≠ some (.timestamp ts))
include hnew

/-- A version that begins with the id of a transaction, or not at all, is added to the others. -/
theorem insertNewestFirst_perm :
    (insertNewestFirst begins new versions).Perm (new :: versions) := by
  have hkeeps : ∀ existing : RowVersion Row, collapses existing new = false := by
    intro existing
    unfold collapses
    split
    · exact absurd ‹_› (hnew _)
    · rfl
  induction versions with
  | nil => exact .refl _
  | cons existing older ih =>
    unfold insertNewestFirst
    split
    · simp [hkeeps]
    · exact (ih.cons existing).trans (.swap new existing older)

theorem insertVersionRaw_perm : (insertVersionRaw begins versions new).Perm (new :: versions) :=
  ((reverse_perm _).trans (insertNewestFirst_perm hnew)).trans (versions.reverse_perm.cons new)

theorem mem_insertVersionRaw :
    v ∈ insertVersionRaw begins versions new ↔ v = new ∨ v ∈ versions := by
  rw [(insertVersionRaw_perm hnew).mem_iff, mem_cons]

end

theorem mem_endVersion {target : ℕ} : v ∈ endVersion id target versions ↔ ∃ old ∈ versions, v =
      if old.id = target then { old with ending := some (.txId id) } else old := by
  simp [endVersion, eq_comm]

theorem endVersion_ids {target : ℕ} :
    (endVersion id target versions).map (·.id) = versions.map (·.id) := by
  rw [endVersion, map_map]
  refine map_congr_left fun v _ => ?_
  dsimp only [Function.comp_apply]
  split <;> rfl

theorem rollbackVersionChain_ids :
    ((rollbackVersionChain id versions).map (·.id)).Sublist (versions.map (·.id)) := by
  have hids : (rollbackVersionChain id versions).map (·.id) =
      (versions.filter fun v => v.beginning ≠ some (.txId id)).map (·.id) := by
    rw [rollbackVersionChain, map_map]
    refine map_congr_left fun v _ => ?_
    dsimp only [Function.comp_apply]
    split <;> rfl
  rw [hids]
  exact filter_sublist.map _

theorem mem_rollbackVersionChain : v ∈ rollbackVersionChain id versions ↔
    ∃ old ∈ versions, old.beginning ≠ some (.txId id) ∧ v =
      if old.ending = some (.txId id) then { old with ending := none } else old := by
  simp only [rollbackVersionChain, mem_map, mem_filter, decide_eq_true_eq, and_assoc, @eq_comm _ v]

end Chain

/-! ## Stamps -/

/-- The chains that a transaction still has to visit. -/
def Transaction.owing (tx : Transaction RowId Row) : List RowId :=
  match tx.commitState with
  | .rewriteLiveVersions left | .rollback left => left
  | .finished | .panicked => []
  | _ => tx.writeSet

/-- The version carries the stamp, at its begin or at its end. -/
def RowVersion.Carries (stamp : TxTimestampOrId) (version : RowVersion Row) : Prop :=
  version.beginning = some stamp ∨ version.ending = some stamp

variable {stamp : TxTimestampOrId}

theorem rewriteStamp_eq_some {id : TxId} {endTs : Timestamp}
    {old : Option TxTimestampOrId} (h : rewriteStamp id endTs old = some stamp) :
    stamp ≠ .txId id ∧ (old = some stamp ∨ stamp = .timestamp endTs) := by
  unfold rewriteStamp at h
  split at h
  · cases h
    exact ⟨by simp, .inr rfl⟩
  · next hne => exact ⟨fun hstamp => hne (hstamp ▸ h), .inl h⟩

/-- A rewritten version carries the stamps that it had, up to the one that is rewritten. -/
theorem carries_of_rewrite {id : TxId} {endTs : Timestamp}
    {old : RowVersion Row} (h : (old.rewriteTxIdToTimestamp id endTs).Carries stamp) :
    stamp ≠ .txId id ∧ (old.Carries stamp ∨ stamp = .timestamp endTs) := by
  obtain hbg | hend := h
  · exact (rewriteStamp_eq_some hbg).imp_right fun h => h.imp_left .inl
  · exact (rewriteStamp_eq_some hend).imp_right fun h => h.imp_left .inr

structure System.Stamps (s : System RowId Row) : Prop where
  owed : ∀ {row version id}, version ∈ s.store.rows row → version.Carries (.txId id) →
    ∃ tx, s.store.txs id = some tx ∧ row ∈ tx.owing
  timed : ∀ {row version ts}, version ∈ s.store.rows row → version.Carries (.timestamp ts) →
    ∃ id record, s.history.ender ts = some id ∧ s.history.records id = some record ∧
      record.outcome = .committed
  keyed : ∀ {row version}, version ∈ s.store.rows row → row ∈ s.store.keys

omit [DecidableEq RowId] in
theorem stamps_empty : (System.empty : System RowId Row).Stamps := by
  constructor <;> simp [System.empty, empty]

section Step
variable {conflictKey : RowId → Option Key} {s s' : System RowId Row} {taken : Step RowId Row}
  {id : TxId} {tx : Transaction RowId Row}

theorem TransactionState.isRollbackable_iff {s : TransactionState} :
    s.isRollbackable = true ↔ s = .active ∨ ∃ endTs, s = .preparing endTs := by
  cases s <;> simp [TransactionState.isRollbackable]

/-- A transaction that may still be rolled back owes a visit to what it wrote. -/
theorem Transaction.Matches.owing_eq_writeSet (h : tx.Matches record)
    (hs : tx.state.isRollbackable) : tx.owing = tx.writeSet := by
  have hfits := h.commitState
  obtain hactive | ⟨endTs, hpreparing⟩ := TransactionState.isRollbackable_iff.mp hs
  · cases hcommit : tx.commitState <;> simp_all [CommitState.Fits, owing]
  · cases hcommit : tx.commitState <;> simp_all [CommitState.Fits, owing]

/-- A transaction is active as long as it has not begun to commit or to roll back. -/
theorem Transaction.Matches.initial (h : tx.Matches record) (hactive : tx.state = .active) :
    tx.commitState = .initial := by
  have hfits := h.commitState
  cases hcommit : tx.commitState <;> simp_all [CommitState.Fits]

theorem Transaction.mem_insertToWriteSet {x : RowId} :
    x ∈ (tx.insertToWriteSet row).writeSet ↔ x = row ∨ x ∈ tx.writeSet := by
  unfold insertToWriteSet
  by_cases hr : row ∈ tx.writeSet
  · simp only [hr, if_true, iff_or_self]
    rintro rfl
    exact hr
  · simp [hr, or_comm]

omit [DecidableEq RowId] in
/-- A timestamp keeps standing for a committed transaction. -/
theorem History.Evolves.timed {clock ts : Timestamp} {old new : History RowId Row}
    (h : old.Evolves clock new)
    (hts : ∃ id record, old.ender ts = some id ∧ old.records id = some record ∧
      record.outcome = .committed) :
    ∃ id record, new.ender ts = some id ∧ new.records id = some record ∧
      record.outcome = .committed := by
  obtain ⟨id, record, hender, hr, hcom⟩ := hts
  obtain ⟨r', hr', hev⟩ := h.records hr
  exact ⟨id, r', h.ender hender, hr', (hev.outcome (by simp [hcom])).trans hcom⟩

/-- A transaction that has to visit a chain before a step still has to after it. -/
def System.StillOwing (s s' : System RowId Row) : Prop :=
  ∀ id tx row, s.store.txs id = some tx → row ∈ tx.owing →
    ∃ tx', s'.store.txs id = some tx' ∧ row ∈ tx'.owing

omit [DecidableEq RowId] in
theorem System.StillOwing.of_txs
    (hsome : ∀ {id tx tx'}, s.store.txs id = some tx → s'.store.txs id = some tx' →
      tx.owing ⊆ tx'.owing)
    (hno : ∀ {id tx}, s.store.txs id = some tx → s'.store.txs id = none → tx.owing = []) :
    s.StillOwing s' := by
  intro id tx r htx hm
  cases htx' : s'.store.txs id with
  | none => simp [hno htx htx'] at hm
  | some tx' => exact ⟨tx', rfl, hsome htx htx' hm⟩

omit [DecidableEq RowId] in
theorem System.StillOwing.modifyTx (htxs : s'.store.txs = (s.store.modifyTx id f).txs)
    (htx : s.store.txs id = some tx) (howing : tx.owing ⊆ (f tx).owing) : s.StillOwing s' := by
  intro x found r hf hm
  rw [htxs]
  refine ⟨_, modifyTx_txs_eq_some.mpr ⟨found, hf, rfl⟩, ?_⟩
  split
  next hother =>
    subst hother
    rw [htx] at hf
    cases hf
    exact howing hm
  next => exact hm

variable {clock : Timestamp}

omit [DecidableEq RowId] in
/-- A step that leaves the chains alone keeps the stamps right, if no transaction forgets a chain. -/
theorem System.Stamps.of_rows (h : s.Stamps) (hrows : s'.store.rows = s.store.rows)
    (hkeys : s'.store.keys = s.store.keys)
    (hev : s.history.Evolves clock s'.history) (howing : s.StillOwing s') : s'.Stamps where
  owed := by
    intro r v id hm hcarries
    rw [hrows] at hm
    obtain ⟨tx, htx, hr⟩ := h.owed hm hcarries
    exact howing id tx r htx hr
  timed := by
    intro r v ts hm hcarries
    rw [hrows] at hm
    exact hev.timed (h.timed hm hcarries)
  keyed := by
    intro r v hm
    rw [hrows] at hm
    exact hkeys ▸ h.keyed hm

variable {history : History RowId Row}

omit [DecidableEq RowId] in
theorem System.Stamps.modifyTx (h : s.Stamps)
    (htx : s.store.txs id = some tx) (hev : s.history.Evolves clock history)
    (howing : tx.owing ⊆ (f tx).owing) : System.Stamps ⟨s.store.modifyTx id f, history⟩ :=
  h.of_rows rfl rfl hev (.modifyTx rfl htx howing)

section
variable (h : s.Stamps) {vs : List (RowVersion Row)}
  (hrows : s'.store.rows = Function.update s.store.rows row vs) {clock : Timestamp}
  (hev : s.history.Evolves clock s'.history)
include h hrows hev

/-- A step that changes the chain of `row`: each version of the new chain carries stamps that are
accounted for. -/
theorem System.Stamps.of_row
    (howing : ∀ {id tx other}, other ≠ row → s.store.txs id = some tx → other ∈ tx.owing →
      ∃ tx', s'.store.txs id = some tx' ∧ other ∈ tx'.owing)
    (howed : ∀ {version id}, version ∈ vs → version.Carries (.txId id) →
      ∃ tx, s'.store.txs id = some tx ∧ row ∈ tx.owing)
    (htimed : ∀ {version ts}, version ∈ vs → version.Carries (.timestamp ts) →
      ∃ id record, s'.history.ender ts = some id ∧ s'.history.records id = some record ∧
      record.outcome = .committed) (hkeys : s.store.keys ⊆ s'.store.keys)
    (hkey : vs ≠ [] → row ∈ s'.store.keys) : s'.Stamps := by
  have hr : ∀ {other version}, version ∈ s'.store.rows other →
      other = row ∧ version ∈ vs ∨ other ≠ row ∧ version ∈ s.store.rows other := by
    intro other version hm
    rw [hrows] at hm
    by_cases hother : other = row
    · subst hother
      exact .inl ⟨rfl, by simpa using hm⟩
    · exact .inr ⟨hother, by simpa [hother] using hm⟩
  constructor
  case owed =>
    intro other version id hm hcarries
    obtain ⟨rfl, hm⟩ | ⟨hother, hm⟩ := hr hm
    · exact howed hm hcarries
    · obtain ⟨tx, htx, hm⟩ := h.owed hm hcarries
      exact howing hother htx hm
  case timed =>
    intro other version ts hm hcarries
    obtain ⟨rfl, hm⟩ | ⟨-, hm⟩ := hr hm
    · exact htimed hm hcarries
    · exact hev.timed (h.timed hm hcarries)
  case keyed =>
    intro other version hm
    obtain ⟨rfl, hm⟩ | ⟨-, hm⟩ := hr hm
    · exact hkey (ne_nil_of_mem hm)
    · exact hkeys (h.keyed hm)

/-- A transaction writes its stamp into the chain of `row`, and will visit it. -/
theorem System.Stamps.write
    (howing : s.StillOwing s' ∧ ∃ tx, s'.store.txs id = some tx ∧ row ∈ tx.owing)
    (hvs : ∀ v ∈ vs, ∀ stamp, v.Carries stamp →
      stamp = .txId id ∨ ∃ old ∈ s.store.rows row, old.Carries stamp)
    (hkeys : s.store.keys ⊆ s'.store.keys) (hk : vs ≠ [] → row ∈ s'.store.keys) :
    s'.Stamps := by
  obtain ⟨hstill, hid⟩ := howing
  refine h.of_row hrows hev (fun _ htx hm => hstill _ _ _ htx hm) ?_ ?_ hkeys hk
  · intro v x hm hcarries
    obtain hstamp | ⟨old, ho, hcarries⟩ := hvs v hm _ hcarries
    · cases hstamp
      exact hid
    · obtain ⟨tx, htx, hr⟩ := h.owed ho hcarries
      exact hstill _ _ _ htx hr
  · intro v ts hm hcarries
    obtain hstamp | ⟨old, ho, hcarries⟩ := hvs v hm _ hcarries
    · cases hstamp
    · exact hev.timed (h.timed ho hcarries)

end

/-- A transaction visits the chain of `row` and takes its stamps away. -/
theorem System.Stamps.visit (h : s.Stamps) {left : List RowId} {vs : List (RowVersion Row)}
    (htx : s.store.txs id = some tx) (howing : tx.owing = row :: left) (hleft : (f tx).owing = left)
    (hvs : ∀ v ∈ vs, ∀ stamp, v.Carries stamp → stamp ≠ .txId id ∧
      ((∃ old ∈ s.store.rows row, old.Carries stamp) ∨
      ∃ ts record, stamp = .timestamp ts ∧ s.history.ender ts = some id ∧
      s.history.records id = some record ∧ record.outcome = .committed))
    (hsome : vs ≠ [] → s.store.rows row ≠ []) :
    System.Stamps ⟨(s.store.setRow row vs).modifyTx id f, s.history⟩ := by
  have hstill : ∀ {x found chain}, x ≠ id ∨ chain ≠ row →
      s.store.txs x = some found → chain ∈ found.owing →
      ∃ tx', (s.store.modifyTx id f).txs x = some tx' ∧ chain ∈ tx'.owing := by
    intro x found chain hne hf hm
    refine ⟨_, modifyTx_txs_eq_some.mpr ⟨found, hf, rfl⟩, ?_⟩
    split
    next hother =>
      subst hother
      rw [htx] at hf
      cases hf
      have hch : chain ≠ row := hne.resolve_left (by simp)
      simpa [hleft, howing, hch] using hm
    next => exact hm
  have hsame : History.Evolves s.store.clock s.history s.history := .of_eq rfl rfl
  refine h.of_row rfl hsame (fun hrow => hstill (.inr hrow)) ?_ ?_ (refl _) ?_
  · intro v x hm hcarries
    obtain ⟨hne, ⟨old, ho, hcarries⟩ | ⟨ts, record, hstamp, -⟩⟩ := hvs v hm _ hcarries
    · obtain ⟨found, hf, hrow⟩ := h.owed ho hcarries
      exact hstill (.inl fun hother => hne (hother ▸ rfl)) hf hrow
    · cases hstamp
  · intro v ts hm hcarries
    obtain ⟨-, ⟨old, ho, hcarries⟩ | ⟨ts, record, hstamp, htimed⟩⟩ := hvs v hm _ hcarries
    · exact h.timed ho hcarries
    · cases hstamp
      exact ⟨id, record, htimed⟩
  · intro hnil
    obtain ⟨v, hm⟩ := exists_mem_of_ne_nil _ (hsome hnil)
    exact h.keyed hm

/-- A row in the write set of an active transaction is owed a visit. -/
theorem System.StillOwing.insertToWriteSet (htxs : s'.store.txs = (s.store.modifyTx id f).txs)
    (htx : s.store.txs id = some tx) (hinitial : tx.commitState = .initial)
    (hcommit : (f tx).commitState = tx.commitState)
    (hwrites : (f tx).writeSet = (tx.insertToWriteSet row).writeSet) :
    s.StillOwing s' ∧ ∃ tx', s'.store.txs id = some tx' ∧ row ∈ tx'.owing := by
  have howing : (f tx).owing = (tx.insertToWriteSet row).writeSet := by
    rw [← hwrites, owing, hcommit, hinitial]
  refine ⟨.modifyTx htxs htx ?_, f tx, ?_, ?_⟩
  · intro x hm
    rw [howing, mem_insertToWriteSet]
    rw [owing, hinitial] at hm
    exact .inr hm
  · rw [htxs]
    exact modifyTx_txs_eq_some.mpr ⟨tx, htx, (if_pos rfl).symm⟩
  · rw [howing, mem_insertToWriteSet]
    exact .inl rfl

/-- A transaction adds a version that carries its stamp only. -/
theorem System.Stamps.addVersion (h : s.Stamps) {v : RowVersion Row}
    (hev : s.history.Evolves clock history)
    (htx : s.store.txs id = some tx) (hinitial : tx.commitState = .initial)
    (hbg : ∀ ts, v.beginning ≠ some (.timestamp ts))
    (hcarries : ∀ stamp, v.Carries stamp → stamp = .txId id)
    (hcommit : (f (tx.insertToWriteSet row)).commitState = tx.commitState)
    (hwrites : (f (tx.insertToWriteSet row)).writeSet = (tx.insertToWriteSet row).writeSet) :
    System.Stamps ⟨(s.store.addVersion id row v).modifyTx id f, history⟩ := by
  have hkeys : ∀ {x}, x ∈ (s.store.addVersion id row v).keys ↔ x = row ∨ x ∈ s.store.keys := by
    intro x
    by_cases hr : row ∈ s.store.keys
    · simp only [MvStore.addVersion, hr, if_true, iff_or_self]
      rintro rfl
      exact hr
    · simp [MvStore.addVersion, hr, or_comm]
  refine h.write rfl hev (System.StillOwing.insertToWriteSet
    addVersion_modifyTx_txs htx hinitial hcommit hwrites) ?_
    (fun _ hm => hkeys.mpr (.inr hm)) (fun _ => hkeys.mpr (.inl rfl))
  intro found hm stamp hstamp
  obtain rfl | hold := (mem_insertVersionRaw hbg).mp hm
  · exact .inl (hcarries stamp hstamp)
  · exact .inr ⟨found, hold, hstamp⟩

theorem System.Stamps.step (h : s.Stamps) (hagrees : s.Agrees)
    (ht : Transition conflictKey s taken s') : s'.Stamps := by
  have hev := ht.evolves hagrees
  cases ht with
  | beginTx =>
    refine h.of_rows rfl rfl hev ?_
    intro x found row hf hm
    obtain ⟨r, hr, -⟩ := hagrees.known hf
    have hother : x ≠ s.store.nextTx := (hagrees.bound hr).ne
    exact ⟨found, by simpa [beginTx, hother] using hf, hm⟩
  | tick => exact h.of_rows rfl rfl hev fun _ tx _ htx hm => ⟨tx, htx, hm⟩
  | wait htx hstate hcounter => exact h
  | start htx hss hmay hlock | load htx hss | inspect htx hss
  | finishRead htx hss | finishProbe htx hss | finishNoDelete htx hss houtcome
  | dirtyHeader htx hactive | abandon htx hstate => exact h.modifyTx htx hev (refl _)
  | @register id tx row purpose x next htx hss =>
    refine h.of_rows rfl rfl hev (.of_txs ?_ ?_)
    · intro found old new ho hnew
      obtain ⟨middle, hmiddle, rfl⟩ := modifyTx_txs_eq_some.mp hnew
      obtain ⟨old', ho', _, _, _, -, rfl⟩ := registerCommitDependency_touched hmiddle
      rw [ho] at ho'
      cases ho'
      split <;> exact refl _
    · intro found old ho hnew
      rw [registerCommitDependency_txs_eq_none (modifyTx_txs_eq_none.mp hnew)] at ho
      cases ho
  | @finishValidate id tx row conflict htx hss =>
    obtain ⟨r, -, hmatches⟩ := hagrees.known htx
    obtain ⟨rows, chains, hstate⟩ := mayStart_validate.mp (hmatches.session _ hss)
    refine h.modifyTx htx hev ?_
    simp only [owing, hstate]
    cases conflict <;> exact refl _
  | @prepare id tx htx hss hactive =>
    obtain ⟨r, -, hmatches⟩ := hagrees.known htx
    refine h.of_rows rfl rfl hev (.modifyTx rfl htx ?_)
    rw [hmatches.owing_eq_writeSet (by rw [hactive]; rfl)]
    unfold owing
    by_cases hreadOnly : tx.isReadOnly <;> simp [hreadOnly]
  | nextRow htx hstate | validated htx hstate | waited htx hstate hcounter
  | resolved htx hstate habort | commitEnd htx hstate | finishAbandoned htx hstate habandoned
  | finalizeCommit htx hstate habandoned | terminate htx hstate htold =>
    refine h.modifyTx htx hev ?_
    simp [owing, hstate]
  | fail htx hstate =>
    refine h.modifyTx htx hev ?_
    rcases hstate with ⟨hstate, -⟩ | ⟨hstate, -⟩ <;> simp [owing, hstate]
  | commitReadOnly htx hstate habort hreadOnly =>
    refine h.modifyTx htx hev ?_
    simp_all [owing, isReadOnly]
  | panic htx hstate htold hset =>
    refine h.of_rows rfl rfl hev (.modifyTx rfl htx ?_)
    simp [owing, hstate]
  | @notify id tx dependent left htx htell =>
    refine h.of_rows rfl rfl hev (.of_txs ?_ ?_)
    · intro found old new ho hnew
      obtain ⟨middle, hmiddle, rfl⟩ := modifyTx_txs_eq_some.mp hnew
      obtain ⟨old', ho', rfl⟩ := modifyTx_txs_eq_some.mp hmiddle
      rw [ho] at ho'
      cases ho'
      split <;> split <;> exact refl _
    · intro found old ho hnew
      rw [modifyTx_txs_eq_none.mp (modifyTx_txs_eq_none.mp hnew)] at ho
      cases ho
  | @remove id tx htx hstate htold hset =>
    refine h.of_rows rfl rfl hev (.of_txs ?_ ?_)
    · intro x old new ho hnew
      by_cases hother : x = id
      · subst hother
        simp at hnew
      · have hsame : some old = some new := by simpa [hother, ho] using hnew
        cases hsame
        exact refl _
    · intro x old ho hnew
      by_cases hother : x = id
      · subst hother
        rw [htx] at ho
        cases ho
        simp [owing, hstate]
      · simp [hother, ho] at hnew
  | @abort id tx htx hss hstate =>
    refine h.of_rows rfl rfl hev (.of_txs ?_ ?_)
    · intro x old new ho hnew
      obtain ⟨middle, hmiddle, rfl⟩ := modifyTx_txs_eq_some.mp hnew
      obtain ⟨old', ho', rfl⟩ := tellToAbort_txs_eq_some.mp hmiddle
      rw [ho] at ho'
      cases ho'
      have hsame : tx.owing = tx.writeSet := by
        obtain ⟨r, -, hmatches⟩ := hagrees.known htx
        exact hmatches.owing_eq_writeSet hstate
      split
      next hother =>
        subst hother
        rw [htx] at ho
        cases ho
        rw [hsame]
        split <;> exact refl _
      next => split <;> exact refl _
    · intro x old ho hnew
      rw [tellToAbort_txs_eq_none.mp (modifyTx_txs_eq_none.mp hnew)] at ho
      cases ho
  | @finishDelete id tx row r target htx hss =>
    obtain ⟨found, -, hmatches⟩ := hagrees.known htx
    have hinitial := hmatches.initial (hagrees.active_of_session htx hss (by simp))
    refine h.write rfl hev
      (System.StillOwing.insertToWriteSet rfl htx hinitial rfl rfl) ?_ (refl _) ?_
    · intro v hm stamp hcarries
      obtain ⟨old, ho, rfl⟩ := mem_endVersion.mp hm
      split at hcarries
      · obtain hbg | hend := hcarries
        · exact .inr ⟨old, ho, .inl hbg⟩
        · exact .inl (Option.some.inj hend).symm
      · exact .inr ⟨old, ho, hcarries⟩
    · intro hnil
      obtain ⟨v, hm⟩ := exists_mem_of_ne_nil _ hnil
      obtain ⟨old, ho, -⟩ := mem_endVersion.mp hm
      exact h.keyed ho
  | @finishTombstone id tx row r htx hss =>
    obtain ⟨found, -, hmatches⟩ := hagrees.known htx
    have hinitial := hmatches.initial (hagrees.active_of_session htx hss (by simp))
    exact h.addVersion hev htx hinitial (by simp) (by simp [RowVersion.Carries]) rfl rfl
  | @insert id tx row w btreeResident htx hss hactive hvacant hlock =>
    obtain ⟨found, -, hmatches⟩ := hagrees.known htx
    exact h.addVersion hev htx (hmatches.initial hactive) (by simp)
      (by simp [RowVersion.Carries]) rfl rfl
  | @rewrite id tx row left htx hstate hlock =>
    obtain ⟨r, hender, hr, hcom⟩ := hagrees.rewriting htx hstate
    refine h.visit htx (by simp [owing, hstate]) rfl ?_ (by simp)
    intro v hm stamp hcarries
    obtain ⟨old, ho, rfl⟩ := mem_map.mp hm
    have hrewritten := carries_of_rewrite hcarries
    refine ⟨hrewritten.1, hrewritten.2.imp (fun hcarried => ⟨old, ho, hcarried⟩) ?_⟩
    rintro rfl
    exact ⟨tx.endTs, r, rfl, hender, hr, hcom⟩
  | @rollBack id tx row left htx hstate htold hlock =>
    refine h.visit htx (by simp [owing, hstate]) rfl ?_ ?_
    · intro v hm stamp hcarries
      obtain ⟨old, ho, hbg, rfl⟩ := mem_rollbackVersionChain.mp hm
      split at hcarries
      next =>
        obtain hcarries | hnone := hcarries
        · exact ⟨fun hstamp => hbg (hstamp ▸ hcarries), .inl ⟨old, ho, .inl hcarries⟩⟩
        · cases hnone
      next hend =>
        refine ⟨?_, .inl ⟨old, ho, hcarries⟩⟩
        rintro rfl
        exact hcarries.elim hbg hend
    · intro hnil
      obtain ⟨v, hm⟩ := exists_mem_of_ne_nil _ hnil
      obtain ⟨old, ho, -⟩ := mem_rollbackVersionChain.mp hm
      exact ne_nil_of_mem ho

end Step

end Turso.Mvcc
