import Turso.Mvcc.Chains

/-!
# Every chain is a snapshot chain

For every set of transactions that may turn out to be the committed ones, the chains carry the
traces of its members, and what each of them sees of a row on which they are serial is what it
should read (`System.Isolation`).
-/

namespace Turso.Mvcc

open Snapshot History List

variable {RowId Row Key : Type}

/-- The writers of the row among the survivors come one after the other. -/
def System.Serial (s : System RowId Row) (survivors : Set TxId) (row : RowId) : Prop :=
  Snapshot.Serial s.history.times survivors (s.writes row)

structure System.Isolation (s : System RowId Row) : Prop where
  distinct : ∀ row, ((s.store.rows row).map (·.id)).Nodup
  fresh : ∀ {row version}, version ∈ s.store.rows row → version.id < s.store.nextVersion
  traced : ∀ {survivors} row, s.history.Viable survivors →
    Traced s.history.times survivors (s.writes row) (s.chain row)
  isolated : ∀ {survivors row}, s.history.Viable survivors → s.Serial survivors row →
    Isolated s.history.times survivors (s.writes row) (s.chain row)
  vacant : ∀ {id tx row survivors}, s.store.txs id = some tx → tx.vacant = some row →
    s.history.Viable survivors → s.Serial survivors row → id ∈ survivors →
      ∀ version ∈ s.chain row, ¬ Seen s.history.times survivors id version
  reader : ∀ {event}, event ∈ s.history.reads → ∃ record, s.history.records event.tx = some record
  read : ∀ {event survivors}, event ∈ s.history.reads → s.history.Viable survivors →
    s.Serial survivors event.row → event.tx ∈ survivors →
      Expected s.history.times survivors (s.writes event.row) event.tx event.own
        event.result

theorem isolation_empty : (System.empty : System RowId Row).Isolation := by
  constructor
  case traced =>
    intro sv r _
    constructor <;> simp [System.chain, System.empty, MvStore.empty, System.writes,
      lastWrite, empty]
  case isolated =>
    intro sv r _ _
    constructor <;> simp [System.chain, System.empty, MvStore.empty, System.writes,
      lastWrite, empty]
  all_goals simp [System.empty, MvStore.empty, empty]

variable [DecidableEq RowId] [DecidableEq Key]

/-! ## What sessions have found -/

section Findings
variable {s : System RowId Row} {row : RowId} {id : TxId} {tx : Transaction RowId Row}
  {sv : Set TxId}

theorem System.Checks.finds (h : s.Checks) (hagrees : s.Agrees) (htx : s.store.txs id = some tx)
    {purpose : Purpose Row} {finding : purpose.Finding}
    (hss : tx.session = some ⟨row, purpose, .done finding⟩) :
    s.history.Finds id (s.store.rows row) purpose finding :=
  h.ensures htx hss (.refl _) hagrees.proper

omit [DecidableEq RowId] in
/-- A survivor does not see versions that are not there for it. -/
theorem not_seen_of_hides (hviable : s.history.Viable sv) (hsv : id ∈ sv)
    (hhides : ∀ version ∈ (s.store.rows row).reverse,
      s.history.Hides id (s.history.Trusts id) version) :
    ∀ version ∈ s.chain row, ¬ Seen s.history.times sv id version := by
  rintro _ ⟨version, hm, rfl⟩
  refine (hhides version (mem_reverse.mpr hm)).not_seen hviable ?_
  exact fun other htrusts => htrusts sv hviable hsv

/-- The version that a check found is deleted by a transaction that sees it. -/
theorem System.Checks.deletes (h : s.Checks) (hagrees : s.Agrees) (htx : s.store.txs id = some tx)
    {r : Option Row} {target : ℕ}
    (hss : tx.session = some ⟨row, .delete r, .done (.found target)⟩) :
    ∃ found ∈ s.chain row, found.id = target ∧ ∀ {sv}, s.history.Viable sv →
      Deletes s.history.times sv id found := by
  obtain ⟨v, hm, hid, hsurfaces, hfree⟩ := h.finds hagrees htx hss
  refine ⟨_, ⟨v, mem_reverse.mp hm, rfl⟩, hid, fun {sv} hviable => ?_⟩
  constructor
  case created =>
    intro c hc hne
    obtain ⟨found, hf, hdone⟩ := hsurfaces.created
    rw [hc] at hf
    cases hf
    obtain ⟨hb, htrusts⟩ := hdone.resolve_left hne
    exact ⟨hb, htrusts sv hviable⟩
  case free => exact fun hd => hviable.aborted (hfree _ hd)
  case seen =>
    exact fun hsv => hsurfaces.seen hviable fun x htrusts =>
      htrusts sv hviable hsv

end Findings

section Isolation
variable {s : System RowId Row} {row : RowId} {id : TxId} {tx : Transaction RowId Row}
  {survivors : Set TxId}

theorem System.Isolation.shows (h : s.Isolation) (hagrees : s.Agrees)
    (hviable : s.history.Viable survivors) (hserial : s.Serial survivors row)
    (hsv : id ∈ survivors) :
    ∃ value, Expected s.history.times survivors (s.writes row) id (s.writes row id) value ∧
      Shows (s.chain row) (Seen s.history.times survivors id) value :=
  (h.isolated hviable hserial).shows (h.traced row hviable) hagrees.proper hserial hsv

/-- A read that is done found what it should. -/
theorem System.Isolation.expected_of_read (h : s.Isolation) (hagrees : s.Agrees)
    (hchecks : s.Checks) (htx : s.store.txs id = some tx) {found : Option (RowVersion Row)}
    (hsession : tx.session = some ⟨row, .read, .done found⟩) (hviable : s.history.Viable survivors)
    (hserial : s.Serial survivors row) (hsv : id ∈ survivors) :
    Expected s.history.times survivors (s.writes row) id (s.writes row id) (found.map (·.row)) := by
  obtain ⟨value, hexpected, hshows⟩ := h.shows hagrees hviable hserial hsv
  have hf := hchecks.finds hagrees htx hsession
  have htrusts : ∀ other, s.history.Trusts id other → other ∈ survivors :=
    fun other htrusts => htrusts survivors hviable hsv
  cases found with
  | none =>
    cases value with
    | none => exact hexpected
    | some value =>
      obtain ⟨version, hm, hseen, -⟩ := hshows
      exact absurd hseen (not_seen_of_hides hviable hsv hf version hm)
  | some version =>
    obtain ⟨hm, hsurfaces⟩ := hf
    have hseen := hsurfaces.seen hviable htrusts
    have hm : s.history.image version ∈ s.chain row := ⟨version, mem_reverse.mp hm, rfl⟩
    cases value with
    | none => exact absurd hseen (hshows _ hm)
    | some value =>
      obtain ⟨shown, -, -, hvalue, hunique⟩ := hshows
      obtain rfl := hunique _ hm hseen
      obtain rfl : version.row = value := hvalue
      exact hexpected

end Isolation

/-! ## Steps -/

section Step
variable {conflictKey : RowId → Option Key} {s s' : System RowId Row} {taken : Step RowId Row}
  {row : RowId} {sv : Set TxId} {id : TxId}

omit [DecidableEq RowId] in
/-- Who is serial later is so before. -/
theorem System.Serial.earlier (h : s'.Serial sv row) {clock : Timestamp}
    (hev : s.history.Evolves clock s'.history)
    (hbg : ∀ {id record}, s.history.records id = some record → record.beginTs ≤ clock) :
    s.Serial sv row := by
  intro id later ts ts' hid hlater hwrote hwrote' he he' hlt
  have hsettled : ∀ {other stop}, s.history.endOf other = some stop →
      s.writes row other ≠ none → s'.writes row other ≠ none := by
    intro other stop hstop hwritten
    have hsame : s'.writes row other = s.writes row other := hev.lastWrite (by simp [hstop])
    rwa [hsame]
  obtain ⟨record, hrecord⟩ := known_of_lastWrite hwrote'
  exact (hev.before_iff hrecord (hbg hrecord)).mp (h id later ts ts' hid hlater
    (hsettled he hwrote) (hsettled he' hwrote') (hev.endOf he) (hev.endOf he') hlt)

/-- Before a transaction that has begun, nothing changes. -/
theorem Transition.before_iff (ht : Transition conflictKey s taken s') (hagrees : s.Agrees)
    {r : Record RowId Row} (hr : s.history.records id = some r) (earlier : TxId) :
    s'.history.times.Before earlier id ↔ s.history.times.Before earlier id :=
  (ht.evolves hagrees).before_iff hr (hagrees.begin_le hr)

theorem Transition.nextVersion_le (ht : Transition conflictKey s taken s') :
    s.store.nextVersion ≤ s'.store.nextVersion := by
  cases ht with
  | finishTombstone | insert => exact Nat.le_succ _
  | _ => exact le_rfl

omit [DecidableEq RowId] in
theorem System.Isolation.fresh_step (h : s.Isolation) (hchanges : s.Changes s' row)
    (hnx : s.store.nextVersion ≤ s'.store.nextVersion) {v : RowVersion Row}
    (hm : v ∈ s'.store.rows row) : v.id < s'.store.nextVersion := by
  -- the ids are those of the images
  have ho : ∀ found ∈ s.chain row, found.id < s'.store.nextVersion := by
    rintro _ ⟨old, ho, rfl⟩
    exact (h.fresh ho).trans_le hnx
  have hnew : ∀ found ∈ s'.chain row, found.id < s'.store.nextVersion := by
    cases hchanges with
    | same hch => rwa [hch]
    | add htx hadds hid hvacant hown hch =>
      rw [hch]
      rintro found (rfl | hfound)
      · exact hid
      · exact ho found hfound
    | delete htx hss hch =>
      rw [hch]
      rintro _ ⟨found, hfound, rfl⟩
      simpa using ho found hfound
    | undo haborted hch =>
      rw [hch]
      rintro _ ⟨found, ⟨hfound, -⟩, rfl⟩
      simpa using ho found hfound
  exact hnew _ ⟨v, hm, rfl⟩

theorem System.Isolation.distinct_step (h : s.Isolation) (ht : Transition conflictKey s taken s')
    (r : RowId) : ((s'.store.rows r).map (·.id)).Nodup := by
  -- one chain is set
  have hset : ∀ {st : MvStore RowId Row} {r' vs}, st.rows = s.store.rows →
      (vs.map (·.id)).Nodup → (((st.setRow r' vs).rows r).map (·.id)).Nodup := by
    intro st r' vs hrows hvs
    by_cases hr : r = r'
    · subst hr
      simpa [MvStore.setRow] using hvs
    · simpa [MvStore.setRow, hr, hrows] using h.distinct r
  have hadd : ∀ {r' v}, (∀ ts, v.beginning ≠ some (.timestamp ts)) → v.id = s.store.nextVersion →
      ((insertVersionRaw s.store.resolveBeginTimestamp (s.store.rows r') v).map (·.id)).Nodup := by
    intro r' v hbg hid
    rw [((insertVersionRaw_perm hbg).map _).nodup_iff, map_cons, nodup_cons]
    refine ⟨fun hm => ?_, h.distinct r'⟩
    obtain ⟨old, ho, heq⟩ := mem_map.mp hm
    exact absurd (heq.trans hid) (h.fresh ho).ne
  cases ht with
  | finishDelete =>
    refine hset rfl ?_
    rw [endVersion_ids]
    exact h.distinct _
  | finishTombstone | insert => exact hset rfl (hadd (by simp) rfl)
  | rewrite =>
    refine hset rfl ?_
    rw [map_map]
    exact h.distinct _
  | rollBack => exact hset rfl ((h.distinct _).sublist rollbackVersionChain_ids)
  | _ => exact h.distinct r

/-- Who adds a version sees none. -/
theorem System.Isolation.not_seen_of_add (h : s.Isolation) (hagrees : s.Agrees)
    (hchecks : s.Checks) {tx : Transaction RowId Row} (htx : s.store.txs id = some tx)
    (hvacant : tx.vacant = some row ∨
      ∃ record, tx.session = some ⟨row, .delete record, .done .absent⟩)
    (hviable : s.history.Viable sv) (hserial : s.Serial sv row)
    (hsv : id ∈ sv) :
    ∀ version ∈ s.chain row, ¬ Seen s.history.times sv id version := by
  obtain hvacant | ⟨record, hss⟩ := hvacant
  · exact h.vacant htx hvacant hviable hserial hsv
  · exact not_seen_of_hides hviable hsv (hchecks.finds hagrees htx hss)

section
variable (h : s.Isolation) (hagrees : s.Agrees) (hchecks : s.Checks) (hchanges : s.Changes s' row)
  (hviable : s.history.Viable sv)
include h hagrees hchecks hchanges hviable

theorem System.Isolation.traced_step :
    Traced s.history.times sv (s'.writes row) (s'.chain row) := by
  have htraced := h.traced row hviable
  cases hchanges with
  | same hchain hwrites => rwa [hchain, hwrites]
  | add htx hadds hid hvacant hown hchain hwrites =>
    rw [hchain, hwrites]
    exact hadds.traced htraced
  | delete htx hss hchain hwrites =>
    obtain ⟨found, hf, rfl, hdeletes⟩ := hchecks.deletes hagrees htx hss
    rw [hchain, hwrites]
    exact (hdeletes hviable).traced htraced hf
  | undo haborted hchain hwrites =>
    rw [hchain, hwrites]
    exact htraced.undo (hviable.aborted haborted)

theorem System.Isolation.isolated_step (hserial : s.Serial sv row) :
    Isolated s.history.times sv (s'.writes row) (s'.chain row) := by
  have htraced := h.traced row hviable
  have hisolated := h.isolated hviable hserial
  cases hchanges with
  | same hchain hwrites => rwa [hchain, hwrites]
  | add htx hadds hid hvacant hown hchain hwrites =>
    rw [hchain, hwrites]
    exact hadds.isolated htraced hagrees.proper hisolated
      (h.not_seen_of_add hagrees hchecks htx hvacant hviable hserial)
  | delete htx hss hchain hwrites =>
    obtain ⟨found, hf, rfl, hdeletes⟩ := hchecks.deletes hagrees htx hss
    rw [hchain, hwrites]
    refine (hdeletes hviable).isolated htraced hf hagrees.proper hisolated fun hsv => ?_
    obtain ⟨value, -, hshows⟩ := h.shows hagrees hviable hserial hsv
    exact ⟨value, hshows⟩
  | undo haborted hchain hwrites =>
    rw [hchain, hwrites]
    exact hisolated.undo (hviable.aborted haborted)

/-- What was vacant stays so, as long as the transaction does not insert. -/
theorem System.Isolation.vacant_step (hsv : id ∈ sv)
    (hvacant : ∀ version ∈ s.chain row, ¬ Seen s.history.times sv id version)
    {tx' : Transaction RowId Row} (htx' : s'.store.txs id = some tx')
    (hvacant' : tx'.vacant = some row) :
    ∀ version ∈ s'.chain row, ¬ Seen s.history.times sv id version := by
  cases hchanges with
  | same hch => rwa [hch]
  | @add actor tx new value htx hadds hid _ hown hch =>
    rw [hch]
    rintro version (rfl | hmem)
    · by_cases hactor : id = actor
      · subst hactor
        obtain rfl | hnone := hown
        · -- a tombstone has no creator
          rintro ⟨⟨c, hc, -⟩, -⟩
          obtain ⟨-, -, hvalue⟩ | ⟨hbg, -⟩ := hadds.stamps
          · cases hvalue
          · simp [hbg] at hc
        · simp [hnone tx' htx'] at hvacant'
      · exact hadds.not_seen hactor
    · exact hvacant version hmem
  | delete htx hss hch =>
    obtain ⟨found, hf, rfl, hdeletes⟩ := hchecks.deletes hagrees htx hss
    rw [hch]
    rintro _ ⟨version, hmem, rfl⟩ hseen
    exact hvacant version hmem
      ((hdeletes hviable).seen_of_mark (h.traced row hviable) hf hsv hmem hseen)
  | undo haborted hch =>
    rw [hch]
    rintro _ ⟨version, ⟨hmem, -⟩, rfl⟩ hseen
    exact hvacant version hmem (seen_of_unmark (hviable.aborted haborted) hsv hseen)

end

theorem System.Isolation.step (h : s.Isolation) (hagrees : s.Agrees) (hstamps : s.Stamps)
    (hchecks : s.Checks) (ht : Transition conflictKey s taken s') : s'.Isolation := by
  have hev := ht.evolves hagrees
  have hchanges := ht.changes hagrees hstamps h.fresh
  have hretime : ∀ {row id}, s'.writes row id ≠ none → ∀ earlier,
      s'.history.times.Before earlier id ↔ s.history.times.Before earlier id := by
    intro row id hwrote
    obtain ⟨record, hrecord⟩ := (hchanges row).known hagrees hwrote
    exact ht.before_iff hagrees hrecord
  have hserial : ∀ {sv row}, s'.Serial sv row → s.Serial sv row :=
    fun hserial => hserial.earlier hev hagrees.begin_le
  constructor
  case distinct => exact h.distinct_step ht
  case fresh => exact fun {row _} hm => h.fresh_step (hchanges row) ht.nextVersion_le hm
  case traced =>
    intro sv row hviable
    exact (h.traced_step hagrees hchecks (hchanges row) (hviable.earlier hev)).retime
      fun _ hwrote => hretime hwrote
  case isolated =>
    intro sv row hviable hserial'
    exact (h.isolated_step hagrees hchecks (hchanges row) (hviable.earlier hev)
      (hserial hserial')).retime fun _ hwrote => hretime hwrote
  case vacant =>
    intro id tx' row sv htx' hvacant hviable hserial' hsv version hm
    replace hviable := hviable.earlier hev
    obtain ⟨-, -, rfl⟩ | ⟨tx, htx, hfollows, -⟩ := ht.entry_origin htx'
    · cases hvacant
    obtain ⟨record, hrecord, -⟩ := hagrees.known htx
    rw [seen_congr (ht.before_iff hagrees hrecord)]
    revert version
    obtain ho | ⟨hss, hrows⟩ | ⟨record, target, hss, hrows, hhistory⟩ := hfollows.vacant hvacant
    · exact h.vacant_step hagrees hchecks (hchanges row) hviable hsv
        (h.vacant htx ho hviable (hserial hserial') hsv) htx' hvacant
    · rw [hstamps.chain_eq hev (congrFun hrows row)]
      exact not_seen_of_hides hviable hsv (hchecks.finds hagrees htx hss)
    · obtain ⟨found, hf, rfl, hdeletes⟩ := hchecks.deletes hagrees htx hss
      obtain ⟨value, -, hshows⟩ := h.shows hagrees hviable (hserial hserial') hsv
      rw [chain_endVersion hrows hhistory]
      exact (hdeletes hviable).vacant (h.traced row hviable) hf hshows hsv
  case reader =>
    intro event hevent
    have ho : ∃ record, s.history.records event.tx = some record := by
      obtain ho | ⟨tx, found, htx, -⟩ := ht.reads_origin hevent
      · exact h.reader ho
      · obtain ⟨record, hrecord, -⟩ := hagrees.known htx
        exact ⟨record, hrecord⟩
    obtain ⟨record, hrecord⟩ := ho
    obtain ⟨record', hrecord', -⟩ := hev.records hrecord
    exact ⟨record', hrecord'⟩
  case read =>
    intro event sv hevent hviable hserial' hsv
    replace hviable := hviable.earlier hev
    replace hserial' := hserial hserial'
    have hexpected : (∃ record, s.history.records event.tx = some record) ∧
        Expected s.history.times sv (s.writes event.row) event.tx event.own
          event.result := by
      obtain ho | ⟨tx, found, htx, hss, hown, hres⟩ := ht.reads_origin hevent
      · exact ⟨h.reader ho, h.read ho hviable hserial' hsv⟩
      · obtain ⟨record, hrecord, -⟩ := hagrees.known htx
        rw [hown, hres]
        exact ⟨⟨record, hrecord⟩, h.expected_of_read hagrees hchecks htx hss hviable hserial' hsv⟩
    obtain ⟨⟨record, hrecord⟩, hexpected⟩ := hexpected
    refine hexpected.congr (ht.before_iff hagrees hrecord) ?_ ?_
    · rintro earlier ⟨ts, he, -⟩
      exact (hev.endOf he).trans he.symm
    · rintro earlier ⟨ts, he, -⟩
      refine hev.lastWrite fun hno => ?_
      cases hno.symm.trans he

end Step

end Turso.Mvcc
