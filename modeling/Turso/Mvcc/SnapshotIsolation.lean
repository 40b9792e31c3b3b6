import Turso.Mvcc.Validation
import Turso.Mvcc.Waiting

/-!
# Snapshot isolation

In every run, a committed transaction has read its own last write of a row or else what the latest
transaction wrote that committed before it began, and no two committed transactions that overlap
have writes in conflict.

Several versions of a row may be visible at once while their writers are preparing.  Among those
that the transaction itself or committed transactions wrote there is at most one.
-/

namespace Turso.Mvcc

open Option

variable {RowId Row Key : Type} [DecidableEq RowId]

/-- The answers to the questions of a check that is not interrupted. -/
def MvStore.answers (store : MvStore RowId Row) : ∀ question : Question, question.Answer
  | .load id | .inspect id => store.lookupTxState id
  | .register _ => ()

/-- The version is visible to an active transaction. -/
def System.Visible (s : System RowId Row) (id : TxId) (row : RowId) (version : RowVersion Row) :
    Prop :=
  version ∈ s.store.rows row ∧ ∃ tx, s.store.txs id = some tx ∧ tx.state = .active ∧
    (isVisibleTo id tx.beginTs version).eval s.store.answers = true

/-- The transactions that have committed. -/
def System.committed (s : System RowId Row) : Set TxId :=
  {id | s.history.Has .committed id}

/-- What holds in every state, with what the checks find. -/
structure System.Secure (conflictKey : RowId → Option Key) (s : System RowId Row) : Prop
    extends s.Sound where
  checks : s.Checks
  isolation : s.Isolation
  validates : s.Validates conflictKey

section Run
variable {conflictKey : RowId → Option Key} {s s' : System RowId Row} {taken : Step RowId Row}
  {steps : List (Step RowId Row)} {id other : TxId} {row : RowId}

/-- Writers of committed transactions in conflict come one after the other. -/
theorem System.Secure.before_or_before (h : s.Secure conflictKey) (hid : id ∈ s.committed)
    (hx : other ∈ s.committed) (hne : id ≠ other) {chain : RowId}
    (hk : conflictKey row ≠ none) (hkeys : conflictKey chain = conflictKey row)
    (hwrote : s.writes row id ≠ none) (hwrote' : s.writes chain other ≠ none) :
    s.history.times.Before id other ∨ s.history.times.Before other id := by
  -- the one that ends later would still be validating
  have hdone : ∀ {id other row chain}, id ∈ s.committed → other ∈ s.committed →
      ¬ s.Conflict conflictKey id other row chain := by
    rintro id other row chain ⟨r, hr, hcom⟩ hx hconflict
    obtain ⟨tx, htx, howes⟩ := h.validates.owes h.reliance.viable ⟨r, hr, hcom⟩ hx hconflict
    have hmatches := h.agrees.matches htx hr
    have hfits := hmatches.commitState
    have hmatch := hmatches.state
    cases hs : tx.commitState <;> simp_all [CommitState.Owes, CommitState.Fits] <;>
      (obtain ⟨endTs, hpreparing⟩ := hfits; simp_all [TransactionState.Matches])
  have hends : ∀ {id}, id ∈ s.committed → ∃ ts, s.history.endOf id = some ts := by
    rintro id ⟨r, hr, hcom⟩
    obtain ⟨ts, hts⟩ := ne_none_iff_exists'.mp (h.agrees.committed_end hr hcom)
    exact ⟨ts, History.endOf_eq_some.mpr ⟨r, hr, hts⟩⟩
  obtain ⟨ts, hts⟩ := hends hid
  obtain ⟨ts', hts'⟩ := hends hx
  by_contra hoverlap
  rw [not_or] at hoverlap
  rcases lt_trichotomy ts ts' with hlt | rfl | hlt
  · exact hdone hx hid ⟨⟨hkeys ▸ hk, hkeys.symm⟩, hwrote', hwrote, ⟨ts, ts', hts, hts', hlt⟩,
      hoverlap.1⟩
  · exact hne (h.agrees.proper.stop_injective hts hts')
  · exact hdone hid hx ⟨⟨hk, hkeys⟩, hwrote, hwrote', ⟨ts', ts, hts', hts, hlt⟩, hoverlap.2⟩

theorem System.Secure.serial (h : s.Secure conflictKey) (hk : conflictKey row ≠ none) :
    s.Serial s.committed row := by
  intro id later ts ts' hid hlater hwrote hwrote' he he' hlt
  have hne : id ≠ later := by
    rintro rfl
    rw [he] at he'
    exact hlt.ne (some.inj he')
  obtain hbefore | hbefore := h.before_or_before hid hlater hne hk rfl hwrote hwrote'
  · exact hbefore
  · exact absurd hlt (History.lt_of_before h.agrees.proper hbefore he' he).not_gt

/-- A check of an active transaction that is not interrupted gets possible answers. -/
theorem System.Sound.answers (h : s.Sound) {tx : Transaction RowId Row}
    (htx : s.store.txs id = some tx) (hactive : tx.state = .active) (phase : Option TxId)
    (question : Question)
    (hallowed : (registration tx.beginTs (s.store.rows row)).allowed phase question) :
    s.history.Operating id tx.beginTs (fun _ => True) question (s.store.answers question) ∧
      (registration tx.beginTs (s.store.rows row)).possible question
        (s.store.answers question) := by
  -- who is asked for has a stamp in the chain, so it is in the map
  have hconfirms : ∀ {x}, (∃ v ∈ s.store.rows row, v.Carries (.txId x)) →
      s.history.Confirms tx.beginTs x (s.store.lookupTxState x) := by
    rintro x ⟨v, hm, hcarries⟩
    obtain ⟨dependedOn, hx, -⟩ := h.stamps.owed hm hcarries
    exact h.agrees.confirms (.refl _) hx (h.agrees.beginOf (.refl _) htx).2
  cases question with
  | register x => exact ⟨trivial, trivial⟩
  | inspect x =>
    cases phase with
    | some due => cases hallowed
    | none => exact ⟨hconfirms hallowed, trivial⟩
  | load x =>
    cases phase with
    | some due => cases hallowed
    | none =>
      refine ⟨⟨hconfirms hallowed, fun _ => trivial, ?_⟩, h.agrees.answer_possible htx x⟩
      rintro rfl
      simp [MvStore.answers, MvStore.lookupTxState, htx, hactive]

section
variable (h : s.Secure conflictKey) {sv : Set TxId} (hviable : s.history.Viable sv)
  {version : RowVersion Row} (hvisible : s.Visible id row version)
  (hc : ∀ c, (s.history.image version).creator = some c → c ∈ sv)
include h hviable hvisible hc

/-- A version that is visible and whose creator survives is seen. -/
theorem System.Secure.seen_of_visible :
    Snapshot.Seen s.history.times sv id (s.history.image version) := by
  obtain ⟨hm, tx, htx, hactive, htrue⟩ := hvisible
  have hexplains := h.stamps.explains (.refl _) h.agrees htx (by rw [hactive]; rfl) row
  have hown := h.stamps.own h.agrees htx hactive hm (h.isolation.ordered h.reliance hm)
  have hensures : (isVisibleTo id tx.beginTs version).Ensures
      (s.history.Operating id tx.beginTs fun _ => True) fun visible =>
        visible = true → s.history.Surfaces id (fun _ => True) version := by
    refine (isVisibleTo_ensures hexplains hm (fun _ _ => trivial) hown).mono
      (fun _ _ hanswer => hanswer) ?_
    rintro (_ | _) hf hvisible
    · cases hvisible
    · exact hf
  have hsurfaces := hensures.eval (isVisibleTo_conforms hm) (h.toSound.answers htx hactive) htrue
  obtain ⟨c, hf, hdone⟩ := hsurfaces.created
  refine ⟨⟨c, hf, ?_⟩, fun d hd => ?_⟩
  · exact hdone.imp_right fun hdone => ⟨hc c hf, hdone.1⟩
  · exact (hsurfaces.kept d hd).not_inView hviable

/-- Of the versions that survivors created, at most one is visible to a survivor. -/
theorem System.Secure.eq_of_visible (hserial : s.Serial sv row)
    (hid : id ∈ sv) {version' : RowVersion Row} (hvisible' : s.Visible id row version')
    (hc' : ∀ c, (s.history.image version').creator = some c → c ∈ sv) : version = version' := by
  obtain ⟨value, -, hshows⟩ := h.isolation.shows h.agrees hviable hserial hid
  have himage := hshows.unique ⟨version, hvisible.1, rfl⟩ ⟨version', hvisible'.1, rfl⟩
    (h.seen_of_visible hviable hvisible hc)
    (h.seen_of_visible hviable hvisible' hc')
  have hids : version.id = version'.id := congrArg Snapshot.Version.id himage
  exact List.inj_on_of_nodup_map (h.isolation.distinct row) hvisible.1 hvisible'.1 hids

end

variable [DecidableEq Key]

theorem System.Secure.step (h : s.Secure conflictKey) (hstep : s.step conflictKey taken = some s') :
    s'.Secure conflictKey := by
  have ht := transition_of_step hstep
  exact ⟨h.toSound.step hstep,
    h.checks.step h.agrees h.stamps h.locks h.reliance (h.isolation.ordered h.reliance) ht,
    h.isolation.step h.agrees h.stamps h.checks ht,
    h.validates.step h.agrees h.stamps h.isolation h.checks ht⟩

theorem System.Reaches.secure (h : System.Reaches conflictKey steps s) : s.Secure conflictKey :=
  Simulation.Run.invariant (fun hsecure hstep => hsecure.step hstep) h
    ⟨⟨agrees_empty, stamps_empty, locks_empty, edges_empty, reliance_empty⟩, ⟨nofun⟩,
      isolation_empty, validates_empty conflictKey⟩

/-- What was recorded at some time of a run stays recorded. -/
theorem System.Secure.evolves (h : s.Secure conflictKey)
    (hrun : Simulation.Run (fun before taken after => before.step conflictKey taken = some after)
      s steps s') : s.history.Evolves s.store.clock s'.history := by
  induction hrun with
  | nil => exact .refl _
  | cons ha _ ih =>
    have ht := transition_of_step ha
    exact (ht.evolves h.agrees).trans (ih (h.step ha)) ht.clock_le

/-- Snapshot isolation, for rows of tables and keys of unique indexes: those that have a conflict
key. -/
theorem snapshot_isolation (hrun : System.Reaches conflictKey steps s) :
    (∀ event ∈ s.history.reads, event.tx ∈ s.committed → conflictKey event.row ≠ none →
      Snapshot.Expected s.history.times s.committed (s.writes event.row) event.tx event.own
        event.result) ∧
    (∀ before middle, before <+: steps → System.Reaches conflictKey before middle →
      ∀ id ∈ s.committed, ∀ row, conflictKey row ≠ none → ∀ version version',
        middle.Visible id row version → middle.Visible id row version' →
        (middle.history.image version).creator ∈ some '' s.committed →
        (middle.history.image version').creator ∈ some '' s.committed → version = version') ∧
    ∀ id ∈ s.committed, ∀ other ∈ s.committed, id ≠ other → ∀ row chain, conflictKey row ≠ none →
      conflictKey chain = conflictKey row → s.writes row id ≠ none → s.writes chain other ≠ none →
        s.history.times.Before id other ∨ s.history.times.Before other id := by
  have hsecure := System.Reaches.secure hrun
  refine ⟨?_, ?_, ?_⟩
  · intro event hevent hcommitted hkey
    exact hsecure.isolation.read hevent hsecure.reliance.viable (hsecure.serial hkey) hcommitted
  · rintro before middle ⟨after, rfl⟩ hreaches id hid row hkey version version' hvisible hvisible'
      ⟨creator, hsurvives, hcreator⟩ ⟨creator', hsurvives', hcreator'⟩
    -- what is viable and serial at the end is so in the middle of the run
    obtain ⟨found, hfound, hrest⟩ := Simulation.run_append_iff.mp hrun
    obtain rfl : found = middle := Simulation.Run.unique
      (fun h h' => some.inj (h.symm.trans h')) hfound hreaches
    have hmiddle := System.Reaches.secure hreaches
    have hevolves := hmiddle.evolves hrest
    refine hmiddle.eq_of_visible (hsecure.reliance.viable.earlier hevolves) hvisible ?_
      ((hsecure.serial hkey).earlier hevolves hmiddle.agrees.begin_le) hid hvisible' ?_
    · rintro found hfound
      rw [← hcreator] at hfound
      exact some.inj hfound ▸ hsurvives
    · rintro found hfound
      rw [← hcreator'] at hfound
      exact some.inj hfound ▸ hsurvives'
  · intro id hid other hother hne row chain hkey hkeys hwrote hwrote'
    exact hsecure.before_or_before hid hother hne hkey hkeys hwrote hwrote'

/-- The timestamps in the chains are the ends of committed transactions, the other stamps are of
transactions that have yet to visit the chain, and no write of a committed transaction is lost. -/
theorem chains_hold_commits (hrun : System.Reaches conflictKey steps s) :
    (∀ row, ∀ version ∈ s.store.rows row, ∀ ts, version.Carries (.timestamp ts) →
      ∃ id ∈ s.committed, s.history.endOf id = some ts) ∧
    (∀ row, ∀ version ∈ s.store.rows row, ∀ id, version.Carries (.txId id) →
      ∃ tx, s.store.txs id = some tx ∧ row ∈ tx.owing) ∧
    ∀ id ∈ s.committed, ∀ row, s.writes row id ≠ none → ∃ version ∈ s.store.rows row,
      some id ∈ [(s.history.image version).creator, (s.history.image version).deleter] := by
  have hsecure := System.Reaches.secure hrun
  refine ⟨fun row version hm ts hts => ?_, fun row version hm id => hsecure.stamps.owed hm,
    fun id hid row hwrote => ?_⟩
  · obtain ⟨id, record, hender, hrecord, hcommitted⟩ := hsecure.stamps.timed hm hts
    exact ⟨id, ⟨record, hrecord, hcommitted⟩,
      History.endOf_eq_some.mpr (hsecure.agrees.ender_iff.mp hender)⟩
  · simpa [eq_comm] using hsecure.isolation.present hsecure.reliance.viable hid hwrote

end Run

/-! ## Two writers that are preparing -/

/-- Two transactions insert the same row and begin to commit; a third begins after that. -/
def racingWriters : List (Step ℕ ℕ) :=
  [.beginTx, .beginTx, .start 0 5 .read, .finish 0, .insert 0 5 10 false, .start 1 5 .read, .load 1,
    .finish 1, .insert 1 5 20 false, .prepare 0, .prepare 1, .beginTx]

/-- The third one reads the row, the first one is rolled back, and the others commit. -/
def readerCommits : List (Step ℕ ℕ) :=
  [.start 2 5 .read, .load 2, .register 2, .finish 2, .abort 0, .rollBack 0, .terminate 0,
    .nextRow 1, .start 1 5 .validate, .finish 1, .nextRow 1, .waitForDependencies 1,
    .dependenciesResolved 1, .commitEnd 1, .rewriteLiveVersions 1, .finalizeCommit 1, .notify 1,
    .prepare 2, .waitForDependencies 2, .dependenciesResolved 2]

theorem readerCommits_run : ∃ s, System.Reaches some (racingWriters ++ readerCommits) s := by
  simp only [System.reaches_iff]
  exact isSome_iff_exists.mp (by decide +kernel)

theorem chains_hold_commits_readerCommits :
    ∃ s, System.Reaches some (racingWriters ++ readerCommits) s ∧ ∀ version ∈ s.store.rows 5, ∀ ts,
      version.Carries (.timestamp ts) → ∃ id ∈ s.committed, s.history.endOf id = some ts := by
  obtain ⟨s, hs⟩ := readerCommits_run
  exact ⟨s, hs, (chains_hold_commits hs).1 5⟩

/-- The read of the third transaction returns what the second one wrote. -/
theorem snapshot_isolation_readerCommits :
    ∃ s, System.Reaches some (racingWriters ++ readerCommits) s ∧
      ∃ event ∈ s.history.reads, event.tx = 2 ∧ event.result = some 20 ∧ event.tx ∈ s.committed ∧
        Snapshot.Expected s.history.times s.committed (s.writes event.row) event.tx event.own
          event.result := by
  have hreads : (System.run some (racingWriters ++ readerCommits)).map (fun s =>
      (s.history.reads.map fun event => (event.tx, event.result),
        (s.history.records 2).map (·.outcome))) =
        some ([(2, some 20), (1, none), (0, none)], some .committed) := by
    decide +kernel
  obtain ⟨s, hs, hfacts⟩ := map_eq_some_iff.mp hreads
  obtain ⟨hreads, hcommitted⟩ := Prod.mk.inj hfacts
  have hreaches := System.reaches_iff.mpr hs
  obtain ⟨event, hevent, heq⟩ := List.mem_map.mp
    (hreads ▸ List.mem_cons_self .. : (2, some 20) ∈ s.history.reads.map fun event =>
      (event.tx, event.result))
  obtain ⟨htx, hresult⟩ := Prod.mk.inj heq
  have hdone : event.tx ∈ s.committed := by
    obtain ⟨record, hrecord, houtcome⟩ := map_eq_some_iff.mp hcommitted
    exact ⟨record, htx ▸ hrecord, houtcome⟩
  exact ⟨s, hreaches, event, hevent, htx, hresult, hdone,
    (snapshot_isolation hreaches).1 event hevent hdone (by simp)⟩

/-- Before that both versions were visible to it. -/
theorem two_versions_visible : ∃ middle s, System.Reaches some racingWriters middle ∧
      System.Reaches some (racingWriters ++ readerCommits) s ∧ 2 ∈ s.committed ∧
      ∃ version version', version ≠ version' ∧ middle.Visible 2 5 version ∧
        middle.Visible 2 5 version' := by
  let first : RowVersion ℕ := ⟨0, some (.txId 0), none, 10, false⟩
  let second : RowVersion ℕ := ⟨1, some (.txId 1), none, 20, false⟩
  have hmiddle : (System.run some racingWriters).map (fun s => (s.store.rows 5,
      (s.store.txs 2).map fun tx => (tx.state,
        (isVisibleTo 2 tx.beginTs first).eval s.store.answers,
        (isVisibleTo 2 tx.beginTs second).eval s.store.answers))) =
      some ([first, second], some (.active, true, true)) := by
    decide +kernel
  have hfinal : (System.run some (racingWriters ++ readerCommits)).map (fun s =>
      (s.history.records 2).map (·.outcome)) = some (some .committed) := by
    decide +kernel
  obtain ⟨middle, hrun, hfacts⟩ := map_eq_some_iff.mp hmiddle
  obtain ⟨hrows, hentry⟩ := Prod.mk.inj hfacts
  obtain ⟨tx, htx, hvisible⟩ := map_eq_some_iff.mp hentry
  obtain ⟨hactive, hfirst, hsecond⟩ : tx.state = .active ∧ _ ∧ _ := by simpa using hvisible
  obtain ⟨s, hs, hcommitted⟩ := map_eq_some_iff.mp hfinal
  obtain ⟨record, hrecord, houtcome⟩ := map_eq_some_iff.mp hcommitted
  refine ⟨middle, s, System.reaches_iff.mpr hrun, System.reaches_iff.mpr hs,
    ⟨record, hrecord, houtcome⟩, first, second, by decide, ?_, ?_⟩
  · exact ⟨by simp [hrows], tx, htx, hactive, hfirst⟩
  · exact ⟨by simp [hrows], tx, htx, hactive, hsecond⟩

end Turso.Mvcc
