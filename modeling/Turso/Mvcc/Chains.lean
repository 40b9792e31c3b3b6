import Turso.Mvcc.Checks

/-!
# How chains change

What a step does to a chain in terms of transactions: nothing, or a transaction adds a version or
deletes one, or what an aborted transaction did is undone (`System.Changes`).  Rewriting stamps to
timestamps does nothing.
-/

namespace Turso.Mvcc

open History Snapshot MvStore Function

variable {RowId Row Key : Type}
variable {value : Option Row}

/-- What a step does to the chain of a row and to what is written to the row. -/
inductive System.Changes (s s' : System RowId Row) (row : RowId) : Prop
  | same (hchain : s'.chain row = s.chain row) (hwrites : s'.writes row = s.writes row)
  | add {id tx new value} (htx : s.store.txs id = some tx)
      (hadds : Adds s.history.times (s.chain row) id new value)
      (hid : new.id < s'.store.nextVersion)
      (hvacant : tx.vacant = some row ∨
        ∃ record, tx.session = some ⟨row, .delete record, .done .absent⟩)
      (hown : value = none ∨ ∀ tx', s'.store.txs id = some tx' → tx'.vacant = none)
      (hchain : s'.chain row = insert new (s.chain row))
      (hwrites : s'.writes row = update (s.writes row) id (some value))
  | delete {id tx record target} (htx : s.store.txs id = some tx)
      (hsession : tx.session = some ⟨row, .delete record, .done (.found target)⟩)
      (hchain : s'.chain row = mark id target '' s.chain row)
      (hwrites : s'.writes row = update (s.writes row) id (some none))
  | undo {id} (haborted : s.history.Has .aborted id)
      (hchain : s'.chain row = undo id (s.chain row))
      (hwrites : s'.writes row = s.writes row)

/-! ## What is written -/

section Writes
variable {history : History RowId Row} {id : TxId}

theorem History.lastWrite_modify {new : History RowId Row} {f : Record RowId Row → Record RowId Row}
    (hrs : new.records = (history.modify id f).records)
    (hf : ∀ r, (f r).writes = r.writes) (x : TxId) (row : RowId) :
    new.lastWrite x row = history.lastWrite x row := by
  unfold lastWrite
  rw [hrs, modify]
  by_cases hx : x = id
  · subst hx
    cases history.records x <;> simp [hf]
  · simp [hx]

theorem History.lastWrite_load {beginTs : Timestamp} {asked : TxId}
    {answer : Option TransactionState} (x : TxId) (row : RowId) :
    (history.load id beginTs asked answer).lastWrite x row = history.lastWrite x row := by
  unfold load
  split
  · exact lastWrite_modify rfl (by simp) x row
  · rfl

variable [DecidableEq RowId]

theorem History.lastWrite_write {record : Record RowId Row}
    (hrecord : history.records id = some record) {r : RowId} (other : TxId) :
    (history.write id r value).lastWrite other r =
      update (fun other => history.lastWrite other r) id (some value) other := by
  unfold lastWrite write modify
  by_cases hother : other = id
  · subst hother
    simp [hrecord]
  · simp [hother]

theorem History.lastWrite_write_of_ne {row row' : RowId} (hrow : row' ≠ row) (x : TxId) :
    (history.write id row value).lastWrite x row' = history.lastWrite x row' := by
  unfold lastWrite write modify
  by_cases hx : x = id
  · subst hx
    cases history.records x <;> simp [hrow]
  · simp [hx]

end Writes

/-! ## The images of changed chains -/

section Images
variable {id : TxId}

variable {history : History RowId Row}

/-- Rewriting the id of a transaction to its end timestamp keeps the images. -/
theorem image_rewrite {endTs : Timestamp}
    (hender : history.ender endTs = some id) (version : RowVersion Row) :
    history.image (version.rewriteTxIdToTimestamp id endTs) = history.image version := by
  have hstamp : ∀ stamp, (rewriteStamp id endTs stamp).bind history.writer =
      stamp.bind history.writer := by
    intro stamp
    unfold rewriteStamp
    split
    next heq => simp [heq, writer, hender]
    next => rfl
  simp only [image, RowVersion.rewriteTxIdToTimestamp, hstamp]

theorem image_endVersion (history : History RowId Row) (id : TxId) (target : ℕ)
    (vs : List (RowVersion Row)) :
    history.image '' {version | version ∈ endVersion id target vs} =
      mark id target '' (history.image '' {version | version ∈ vs}) := by
  have hmark : ∀ version : RowVersion Row,
      history.image (if version.id = target then { version with ending := some (.txId id) }
        else version) = mark id target (history.image version) := by
    intro version
    unfold mark
    split
    next hid => simp [image, writer, hid]
    next hid => simp [image, hid]
  ext found
  simp only [Set.mem_image, Set.mem_ofPred_eq, mem_endVersion]
  constructor
  · rintro ⟨_, ⟨version, hm, rfl⟩, rfl⟩
    exact ⟨_, ⟨version, hm, rfl⟩, (hmark version).symm⟩
  · rintro ⟨_, ⟨version, hm, rfl⟩, rfl⟩
    exact ⟨_, ⟨version, hm, rfl⟩, hmark version⟩

/-- What a transaction did is undone, as long as its stamps are not timestamps. -/
theorem image_rollback {vs : List (RowVersion Row)}
    (htimed : ∀ version ∈ vs, ∀ ts, version.Carries (.timestamp ts) → history.ender ts ≠ some id) :
    history.image '' {version | version ∈ rollbackVersionChain id vs} =
      undo id (history.image '' {version | version ∈ vs}) := by
  have hstamp : ∀ version ∈ vs, ∀ stamp, version.Carries stamp →
      (history.writer stamp = some id ↔ stamp = .txId id) := by
    intro version hm stamp hcarries
    cases stamp with
    | txId x => simp [writer]
    | timestamp ts => simpa [writer] using htimed version hm ts hcarries
  have hc : ∀ version ∈ vs,
      ((history.image version).creator = some id ↔ version.beginning = some (.txId id)) := by
    intro version hm
    cases hbg : version.beginning with
    | none => simp [image, hbg]
    | some stamp => simpa [image, hbg] using hstamp version hm stamp (.inl hbg)
  have hunmark : ∀ version ∈ vs,
      history.image (if version.ending = some (.txId id) then { version with ending := none }
        else version) = unmark id (history.image version) := by
    intro version hm
    have hd : (history.image version).deleter = some id ↔ version.ending = some (.txId id) := by
      cases he : version.ending with
      | none => simp [image, he]
      | some stamp => simpa [image, he] using hstamp version hm stamp (.inr he)
    unfold unmark
    by_cases he : version.ending = some (.txId id)
    · rw [if_pos he, if_pos (hd.mpr he)]
      simp [image]
    · rw [if_neg he, if_neg (mt hd.mp he)]
  ext found
  simp only [Set.mem_image, Set.mem_ofPred_eq, mem_rollbackVersionChain, undo]
  constructor
  · rintro ⟨_, ⟨version, hm, hbg, rfl⟩, rfl⟩
    exact ⟨_, ⟨⟨version, hm, rfl⟩, mt (hc version hm).mp hbg⟩, (hunmark version hm).symm⟩
  · rintro ⟨_, ⟨⟨version, hm, rfl⟩, hbg⟩, rfl⟩
    exact ⟨_, ⟨version, hm, mt (hc version hm).mpr hbg, rfl⟩, hunmark version hm⟩

theorem image_insertVersionRaw (history : History RowId Row)
    {begins : Option TxTimestampOrId → Timestamp} {new : RowVersion Row}
    (hnew : ∀ ts, new.beginning ≠ some (.timestamp ts)) (vs : List (RowVersion Row)) :
    history.image '' {version | version ∈ insertVersionRaw begins vs new} =
      insert (history.image new) (history.image '' {version | version ∈ vs}) := by
  have hset : {version | version ∈ insertVersionRaw begins vs new} =
      insert new {version | version ∈ vs} := by
    ext version
    simp [mem_insertVersionRaw hnew]
  rw [hset, Set.image_insert_eq]

end Images

/-! ## Steps -/

section Step
variable [DecidableEq RowId] [DecidableEq Key] {conflictKey : RowId → Option Key}
  {s s' : System RowId Row} {taken : Step RowId Row} {row : RowId} {id : TxId}
  {tx : Transaction RowId Row}

omit [DecidableEq RowId] in
theorem System.Stamps.unchanged (h : s.Stamps) {clock : Timestamp}
    (hev : s.history.Evolves clock s'.history)
    (hrows : s'.store.rows row = s.store.rows row)
    (hwrites : ∀ id, s'.history.lastWrite id row = s.history.lastWrite id row) :
    s.Changes s' row :=
  .same (h.chain_eq hev hrows) (funext hwrites)

/-- The chain in which a version was given its end. -/
theorem chain_endVersion {target : ℕ} {id : TxId}
    (hrows : s'.store.rows row = endVersion id target (s.store.rows row))
    (hhistory : s'.history = s.history.write id row none) :
    s'.chain row = mark id target '' s.chain row := by
  unfold System.chain
  rw [hrows, hhistory]
  exact image_endVersion _ id target _

/-- An active transaction adds a version with its stamp. -/
theorem System.Stamps.adds (h : s.Stamps) (hagrees : s.Agrees)
    (hfresh : ∀ {row v}, v ∈ s.store.rows row → v.id < s.store.nextVersion)
    (htx : s.store.txs id = some tx) (hactive : tx.state = .active) {r' : RowId}
    {v : RowVersion Row} (hid : v.id = s.store.nextVersion)
    (hstamps : v.beginning = some (.txId id) ∧ v.ending = none ∧ value = some v.row ∨
      v.beginning = none ∧ v.ending = some (.txId id) ∧ value = none)
    (hvacant : tx.vacant = some r' ∨ ∃ r, tx.session = some ⟨r', .delete r, .done .absent⟩)
    (hown : value = none ∨ ∀ tx', s'.store.txs id = some tx' → tx'.vacant = none)
    (hrows : s'.store.rows = (s.store.addVersion id r' v).rows)
    (hnx : s'.store.nextVersion = s.store.nextVersion + 1)
    (hhistory : s'.history = s.history.write id r' value) : s.Changes s' row := by
  obtain ⟨r, hr, -⟩ := hagrees.known htx
  have hev : s.history.Evolves s.store.clock s'.history :=
    hhistory ▸ hagrees.evolves_write htx hactive _ _ _
  by_cases hrow : row = r'
  · subst hrow
    have himage : s'.history.image = s.history.image := by
      rw [hhistory]
      rfl
    have hbg : ∀ ts, v.beginning ≠ some (.timestamp ts) := by
      intro ts
      obtain ⟨hbg, -⟩ | ⟨hbg, -⟩ := hstamps <;> simp [hbg]
    have hadds : Adds s.history.times (s.chain row) id (s.history.image v) value := by
      refine ⟨?_, ?_, ?_⟩
      · show s.history.endOf id = none
        rw [endOf_eq hr, (hagrees.active htx hactive hr).1]
      · rintro _ ⟨old, hm, rfl⟩ heq
        exact absurd (hid ▸ heq) (hfresh hm).ne
      · obtain ⟨hbg, he, rfl⟩ | ⟨hbg, he, rfl⟩ := hstamps
        · exact .inl ⟨by simp [History.image, hbg, History.writer],
            by simp [image, he], rfl⟩
        · exact .inr ⟨by simp [image, hbg],
            by simp [History.image, he, History.writer], rfl⟩
    refine .add htx hadds ?_ hvacant hown ?_ ?_
    · rw [hnx]
      exact Nat.lt_succ_of_le hid.le
    · unfold System.chain
      rw [himage, hrows]
      simp only [MvStore.addVersion, MvStore.modifyTx, MvStore.setRow, update_self]
      exact image_insertVersionRaw _ hbg _
    · funext other
      rw [System.writes, hhistory, lastWrite_write hr]
      rfl
  · refine h.unchanged hev ?_ fun other => ?_
    · rw [hrows]
      exact update_of_ne hrow ..
    · rw [hhistory, lastWrite_write_of_ne hrow]

theorem Transition.changes (ht : Transition conflictKey s taken s') (hagrees : s.Agrees)
    (hstamps : s.Stamps)
    (hfresh : ∀ {row version}, version ∈ s.store.rows row → version.id < s.store.nextVersion)
    (row : RowId) : s.Changes s' row := by
  have hev := ht.evolves hagrees
  cases ht with
  | beginTx =>
    refine hstamps.unchanged hev rfl fun id => ?_
    unfold lastWrite
    by_cases hid : id = s.store.nextTx
    · rw [hid, hagrees.records_nextTx]
      simp
    · simp [hid]
  | load =>
    exact hstamps.unchanged hev rfl fun id => lastWrite_load id row
  | prepare | commitReadOnly | commitEnd | abort =>
    exact hstamps.unchanged hev rfl fun id =>
      lastWrite_modify rfl (by simp) id row
  | @finishDelete id tx row' record target htx hss =>
    by_cases hrow : row = row'
    · subst hrow
      obtain ⟨found, hf, -⟩ := hagrees.known htx
      exact .delete htx hss (chain_endVersion (update_self ..) rfl)
        (funext fun other => lastWrite_write hf other)
    · refine hstamps.unchanged hev (update_of_ne hrow ..) fun other => ?_
      exact lastWrite_write_of_ne hrow other
  | finishTombstone htx hss =>
    exact hstamps.adds hagrees hfresh htx (hagrees.active_of_session htx hss (by simp)) rfl
      (.inr ⟨rfl, rfl, rfl⟩) (.inr ⟨_, hss⟩) (.inl rfl) rfl rfl rfl
  | insert htx hss hactive hvacant hlock =>
    refine hstamps.adds hagrees hfresh htx hactive rfl (.inl ⟨rfl, rfl, rfl⟩) (.inl hvacant)
      (.inr fun tx' htx' => ?_) rfl rfl rfl
    rw [addVersion_modifyTx_txs] at htx'
    rw [eq_of_modifyTx_self htx' htx]
  | @rewrite id tx row' left htx hstate hlock =>
    by_cases hrow : row = row'
    · subst hrow
      obtain ⟨record, hender, -⟩ := hagrees.rewriting htx hstate
      refine .same ?_ rfl
      ext found
      simp only [System.chain, modifyTx, setRow, update_self,
        List.mem_map, Set.mem_image, Set.mem_ofPred_eq, exists_exists_and_eq_and,
        image_rewrite hender]
    · exact hstamps.unchanged hev (update_of_ne hrow ..) fun _ => rfl
  | @rollBack id tx row' left htx hstate htold hlock =>
    by_cases hrow : row = row'
    · subst hrow
      obtain ⟨record, hrecord, hmatches⟩ := hagrees.known htx
      have hfits := hmatches.commitState
      rw [hstate] at hfits
      have hmatch := hmatches.state
      rw [hfits] at hmatch
      refine .undo ⟨record, hrecord, hmatch⟩ ?_ rfl
      simp only [System.chain, modifyTx, setRow, update_self]
      refine image_rollback fun version hm ts hcarries hender => ?_
      -- an aborted transaction left no timestamp
      obtain ⟨other, found, hender', hf, hcom⟩ := hstamps.timed hm hcarries
      rw [hender] at hender'
      cases hender'
      rw [hrecord] at hf
      cases hf
      rw [hmatch] at hcom
      cases hcom
    · exact hstamps.unchanged hev (update_of_ne hrow ..) fun _ => rfl
  | _ => exact hstamps.unchanged hev rfl fun _ => rfl

/-- Who wrote to the row was recorded before the step. -/
theorem System.Changes.known (h : s.Changes s' row) (hagrees : s.Agrees)
    (hwrote : s'.writes row id ≠ none) : ∃ record, s.history.records id = some record := by
  have hupdate : ∀ {actor tx value}, s.store.txs actor = some tx →
      s'.writes row = update (s.writes row) actor (some value) →
        ∃ record, s.history.records id = some record := by
    intro actor tx value htx hwrites
    by_cases hid : id = actor
    · obtain ⟨record, hrecord, -⟩ := hagrees.known htx
      exact ⟨record, hid ▸ hrecord⟩
    · rw [hwrites, update_of_ne hid] at hwrote
      exact known_of_lastWrite hwrote
  cases h with
  | same hch hwrites | undo haborted hch hwrites =>
    rw [hwrites] at hwrote
    exact known_of_lastWrite hwrote
  | add htx hadds hid hvacant hown hch hwrites
  | delete htx hss hch hwrites => exact hupdate htx hwrites

/-- A read that is recorded ends a session. -/
theorem Transition.reads_origin (ht : Transition conflictKey s taken s')
    {event : ReadEvent RowId Row} (hevent : event ∈ s'.history.reads) :
    event ∈ s.history.reads ∨ ∃ tx found, s.store.txs event.tx = some tx ∧
      tx.session = some ⟨event.row, .read, .done found⟩ ∧
        event.own = s.writes event.row event.tx ∧ event.result = found.map (·.row) := by
  cases ht with
  | finishRead htx hss =>
    obtain rfl | hevent := List.mem_cons.mp hevent
    · exact .inr ⟨_, _, htx, hss, rfl, rfl⟩
    · exact .inl hevent
  | load =>
    unfold History.load at hevent
    split at hevent <;> exact .inl hevent
  | _ => exact .inl hevent

end Step

end Turso.Mvcc
