import Turso.Mvcc.Dependencies
import Mathlib.Data.List.Induction
import Mathlib.Logic.Relation

/-!
# Who waits for whom

Every registered dependency is resolved once or still waits where it will be resolved, unless an
abandoned transaction is finished by the leader of its group while others depend on it: that path
does not tell them, and `remove_tx` then fails its assertion.

A dependency leads to a transaction that ended before its dependent began.  So transactions do not
wait for one another in a cycle.
-/

namespace Turso.Mvcc

open Transaction MvStore List Simulation

variable {RowId Row Key : Type} [DecidableEq RowId] [DecidableEq Key]

/-! ## No dependent is forgotten -/

/-- The dependents of a transaction that is decided were taken out of its set, and only writers
have dependents. -/
structure Transaction.Tells (tx : Transaction RowId Row) : Prop where
  alive : tx.commitState ≠ .panicked
  taken : tx.commitState.tells → tx.commitDepSet = []
  wrote : tx.commitDepSet ≠ [] → tx.writeSet ≠ []

def System.Tells (s : System RowId Row) : Prop :=
  ∀ id tx, s.store.txs id = some tx → tx.Tells

/-- A commit is not finished for an abandoned transaction that others depend on. -/
def System.KeepsDependents (s : System RowId Row) : Step RowId Row → Prop
  | .finalizeCommit id => ∀ tx, s.store.txs id = some tx → tx.abandoned → tx.commitDepSet = []
  | _ => True

omit [DecidableEq RowId] in
theorem tells_empty : (System.empty : System RowId Row).Tells := by
  intro id tx htx
  cases htx

section Step
variable {conflictKey : RowId → Option Key} {s s' : System RowId Row} {taken : Step RowId Row}
  {id : TxId} {tx tx' : Transaction RowId Row}

omit [DecidableEq RowId] in
theorem Transaction.Tells.congr (h : tx.Tells) (hcommit : tx'.commitState = tx.commitState)
    (hset : tx'.commitDepSet = tx.commitDepSet) (hwrites : tx.writeSet ⊆ tx'.writeSet) :
    tx'.Tells := by
  refine ⟨hcommit ▸ h.alive, fun htells => hset ▸ h.taken (hcommit ▸ htells), ?_⟩
  intro hne hno
  exact h.wrote (hset ▸ hne) (subset_nil.mp (hno ▸ hwrites))

omit [DecidableEq RowId] in
theorem Transaction.Tells.of_silent (h : tx.Tells) (hset : tx'.commitDepSet = tx.commitDepSet)
    (hwrites : tx'.writeSet = tx.writeSet) (hcommit : tx'.commitState.tells = false)
    (halive : tx'.commitState ≠ .panicked) : tx'.Tells :=
  ⟨halive, by simp [hcommit], by rw [hset, hwrites]; exact h.wrote⟩

omit [DecidableEq RowId] in
theorem Transaction.Tells.of_nil (hset : tx.commitDepSet = []) (halive : tx.commitState ≠ .panicked) :
    tx.Tells :=
  ⟨halive, fun _ => hset, fun hne => absurd hset hne⟩

omit [DecidableEq RowId] in
theorem System.Tells.modifyTx (h : s.Tells) {f : Transaction RowId Row → Transaction RowId Row}
    (htx : s.store.txs id = some tx) (htxs : s'.store.txs = (s.store.modifyTx id f).txs)
    (hnew : (f tx).Tells) : s'.Tells := by
  intro x tx' htx'
  rw [htxs] at htx'
  obtain ⟨rfl, rfl⟩ | ⟨-, ho⟩ := modifyTx_cases htx htx'
  · exact hnew
  · exact h _ _ ho

/-- Dependencies are registered on writers. -/
theorem System.Reliance.writes_of_register (h : s.Reliance) (hagrees : s.Agrees) (hstamps : s.Stamps)
    (htx : s.store.txs id = some tx) {row : RowId} {purpose : Purpose Row} {x : TxId}
    {next : Unit → Check purpose.Finding}
    (hss : tx.session = some ⟨row, purpose, .ask (.register x) next⟩)
    {dependedOn : Transaction RowId Row} (hx : s.store.txs x = some dependedOn)
    (hs : dependedOn.state.isRollbackable) : dependedOn.writeSet ≠ [] := by
  obtain ⟨r, hr, -⟩ := hagrees.known htx
  obtain ⟨due, hsecures⟩ := h.secured htx hr
  obtain ⟨hallowed, -⟩ := hsecures.conforms _ hss
  cases due with
  | none => cases hallowed
  | some due =>
    obtain rfl : x = due := hallowed
    obtain ⟨-, ss, -, v, hm, hcarries⟩ := hsecures.owing x rfl
    obtain ⟨found, hf, howing⟩ := hstamps.owed hm hcarries
    rw [hx] at hf
    cases hf
    obtain ⟨r', -, hmatches⟩ := hagrees.known hx
    rw [hmatches.owing_eq_writeSet hs] at howing
    exact ne_nil_of_mem howing

theorem System.Tells.step (h : s.Tells) (hagrees : s.Agrees) (hstamps : s.Stamps)
    (hreliance : s.Reliance) (hkeeps : s.KeepsDependents taken)
    (ht : Transition conflictKey s taken s') : s'.Tells := by
  cases ht with
  | beginTx =>
    intro x tx' htx'
    by_cases hx : x = s.store.nextTx
    · subst hx
      obtain rfl : tx' = { beginTs := s.store.clock + 1 } := by
        simpa [beginTx, eq_comm] using htx'
      exact .of_nil rfl (by simp)
    · exact h _ _ (by simpa [beginTx, hx] using htx')
  | tick => exact h
  | wait => exact h
  | start htx | load htx | inspect htx | finishRead htx | finishProbe htx | finishNoDelete htx
  | dirtyHeader htx | abandon htx =>
    exact h.modifyTx htx rfl ((h _ _ htx).congr rfl rfl fun _ hm => hm)
  | finishDelete htx =>
    exact h.modifyTx htx rfl ((h _ _ htx).congr rfl rfl fun _ hm =>
      mem_insertToWriteSet.mpr (.inr hm))
  | finishTombstone htx | insert htx =>
    exact h.modifyTx htx addVersion_modifyTx_txs ((h _ _ htx).congr rfl rfl fun _ hm =>
      mem_insertToWriteSet.mpr (.inr hm))
  | finishValidate htx hss =>
    obtain ⟨r, -, hmatches⟩ := hagrees.known htx
    obtain ⟨rows, chains, hs⟩ := mayStart_validate.mp (hmatches.session _ hss)
    refine h.modifyTx htx rfl ((h _ _ htx).of_silent rfl rfl ?_ ?_) <;> simp only [hs] <;> split <;>
      simp [CommitState.tells]
  | prepare htx =>
    refine h.modifyTx htx rfl ((h _ _ htx).of_silent rfl rfl ?_ ?_) <;> dsimp only <;> split <;>
      simp [CommitState.tells]
  | nextRow htx | validated htx | waited htx | fail htx | resolved htx | commitEnd htx
  | rewrite htx =>
    exact h.modifyTx htx rfl ((h _ _ htx).of_silent rfl rfl rfl (by simp))
  | commitReadOnly htx hs habort hreadOnly =>
    refine h.modifyTx htx rfl (.of_nil ?_ (by simp))
    by_contra hne
    have hwrote := (h _ _ htx).wrote hne
    simp [isReadOnly, hwrote] at hreadOnly
  | finishAbandoned htx hs habandoned =>
    refine h.modifyTx htx rfl (.of_nil ?_ (by simp))
    exact (hkeeps _ htx habandoned :)
  | finalizeCommit htx => exact h.modifyTx htx rfl (.of_nil rfl (by simp))
  | rollBack htx hs | terminate htx hs =>
    exact h.modifyTx htx rfl (.of_nil ((h _ _ htx).taken (by rw [hs]; rfl)) (by simp))
  | panic htx hs htold hset => exact absurd ((h _ _ htx).taken (by rw [hs]; rfl)) hset
  | notify htx htell =>
    intro x tx' htx'
    obtain ⟨middle, hmiddle, rfl⟩ := modifyTx_txs_eq_some.mp htx'
    obtain ⟨old, ho, rfl⟩ := modifyTx_txs_eq_some.mp hmiddle
    split <;> split <;> exact (h _ _ ho).congr rfl rfl fun _ hm => hm
  | @remove id tx htx =>
    intro x tx' htx'
    have hx : x ≠ id := by
      rintro rfl
      simp at htx'
    exact h _ _ ((Function.update_of_ne hx ..).symm.trans htx')
  | abort htx =>
    intro x tx' htx'
    obtain ⟨middle, hmiddle, rfl⟩ := modifyTx_txs_eq_some.mp htx'
    obtain ⟨old, ho, rfl⟩ := tellToAbort_txs_eq_some.mp hmiddle
    split
    · exact .of_nil rfl (by simp)
    · split <;> exact (h _ _ ho).congr rfl rfl fun _ hm => hm
  | @register id tx row purpose x next htx hss =>
    intro e tx' htx'
    obtain ⟨last, hlast, rfl⟩ := modifyTx_txs_eq_some.mp htx'
    obtain ⟨dependedOn, hx, ⟨endTs, hpreparing⟩, -, htxs, -⟩ | ⟨doomed, htxs, -, -⟩ :=
      register_cases s id x <;> rw [htxs] at hlast
    · obtain ⟨middle, hmiddle, rfl⟩ := modifyTx_txs_eq_some.mp hlast
      obtain ⟨old, ho, rfl⟩ := modifyTx_txs_eq_some.mp hmiddle
      have hadded : (if e = x then
          { old with commitDepSet := id :: old.commitDepSet } else old).Tells := by
        split
        next hentry =>
          subst hentry
          rw [hx] at ho
          cases ho
          have hs : dependedOn.state.isRollbackable := by rw [hpreparing]; rfl
          have hwrites := hreliance.writes_of_register hagrees hstamps htx hss hx hs
          refine ⟨(h _ _ hx).alive, fun htells => ?_, fun _ => hwrites⟩
          simp [(hagrees.decided_of_tells hx htells).1] at hs
        next => exact h _ _ ho
      split <;> exact hadded.congr rfl rfl fun _ hm => hm
    · obtain ⟨old, ho, rfl⟩ := modifyTx_txs_eq_some.mp hlast
      split <;> exact (h _ _ ho).congr rfl rfl fun _ hm => hm

end Step

/-! ## Every run -/

/-- What holds in every state that is reached. -/
structure System.Sound (s : System RowId Row) : Prop where
  agrees : s.Agrees
  stamps : s.Stamps
  locks : s.Locks
  edges : s.Edges
  reliance : s.Reliance

section Run
variable {conflictKey : RowId → Option Key} {s s' : System RowId Row} {taken : Step RowId Row}
  {steps : List (Step RowId Row)} {id x : TxId}

theorem System.Sound.step (h : s.Sound) (hstep : s.step conflictKey taken = some s') : s'.Sound := by
  have ht := transition_of_step hstep
  exact ⟨h.agrees.step ht, h.stamps.step h.agrees ht, h.locks.step h.agrees ht,
    h.edges.step h.agrees ht, h.reliance.step h.agrees h.stamps h.edges h.locks ht⟩

theorem System.Reaches.sound (h : System.Reaches conflictKey steps s) : s.Sound :=
  Run.invariant (fun hsound hstep => hsound.step hstep) h
    ⟨agrees_empty, stamps_empty, locks_empty, edges_empty, reliance_empty⟩

/-- A dependency leads to a transaction that ended before its dependent began, and so does a chain
of dependencies. -/
theorem System.Sound.ended_of_depends (h : s.Sound)
    (hdepends : Relation.TransGen (fun id x => (id, x) ∈ s.history.registered) id x) :
    ∃ r r' endTs, s.history.records id = some r ∧
      s.history.records x = some r' ∧ r'.endTs = some endTs ∧ endTs < r.beginTs := by
  induction hdepends with
  | single hedge =>
    obtain ⟨r, hr, hrelied⟩ := h.reliance.relied hedge
    obtain ⟨r', endTs, hr', he, hlt⟩ := h.reliance.ended hr hrelied
    exact ⟨r, r', endTs, hr, hr', he, hlt⟩
  | tail _ hedge ih =>
    obtain ⟨r, middle, middleEnd, hr, hmiddle, hmiddleEnd, hlt⟩ := ih
    obtain ⟨found, hf, hrelied⟩ := h.reliance.relied hedge
    rw [hmiddle] at hf
    cases hf
    obtain ⟨r', endTs, hr', he, hlt'⟩ := h.reliance.ended hmiddle hrelied
    refine ⟨r, r', endTs, hr, hr', he, ?_⟩
    calc endTs < middle.beginTs := hlt'
      _ < middleEnd := h.agrees.begin_lt_end hmiddle hmiddleEnd
      _ < r.beginTs := hlt

/-- What commit dependencies are for.  An edge that is not resolved waits where it will be told:
at a transaction that has still to take its dependents, or is telling them. -/
structure System.DependenciesHold (s : System RowId Row) : Prop where
  committed : ∀ {id record other}, s.history.records id = some record →
    (record.outcome = .committed ∨
      ∃ tx ts, s.store.txs id = some tx ∧ tx.state = .committed ts) →
    other ∈ record.relied → s.history.Has .committed other
  doomed : ∀ {id other record}, (id, other) ∈ s.history.registered →
    s.history.Has .aborted other → s.history.records id = some record →
      record.outcome ≠ .committed ∧ (s.store.txs id = none → record.outcome = .aborted)
  counted : ∀ {id tx}, s.store.txs id = some tx →
    tx.commitDepCounter = (s.history.unresolved id).length
  once : s.history.registered.Nodup ∧ s.history.notified.Nodup ∧
    s.history.notified ⊆ s.history.registered
  kept : ∀ {id other}, (id, other) ∈ s.history.registered → (id, other) ∉ s.history.notified →
    ∃ tx, s.store.txs other = some tx ∧ (id ∈ tx.toNotify ∨
      id ∈ tx.commitDepSet ∧ tx.commitState.tells = false ∧ tx.commitState ≠ .panicked)
  earlier : ∀ {id other}, (id, other) ∈ s.history.registered →
    ∃ record record' endTs, s.history.records id = some record ∧
      s.history.records other = some record' ∧ record'.endTs = some endTs ∧
        endTs < record.beginTs ∧ ∀ {ts}, record.endTs = some ts → endTs < ts
  acyclic : ∀ id, ¬ Relation.TransGen (fun id other => (id, other) ∈ s.history.registered) id id

theorem System.Sound.dependenciesHold (h : s.Sound) (htells : s.Tells) : s.DependenciesHold := by
  constructor
  case committed =>
    intro id r x hr hcom hrelied
    refine h.reliance.committed hr ?_ hrelied
    obtain hcom | ⟨tx, ts, htx, hs⟩ := hcom
    · exact hcom
    · have hmatch := (h.agrees.matches htx hr).state
      rw [hs] at hmatch
      exact hmatch.2
  case doomed =>
    intro id x r hm ⟨r', hr', haborted⟩ hr
    have hnot : r.outcome ≠ .committed := by
      intro hcom
      obtain ⟨found, hf, hrelied⟩ := h.reliance.relied hm
      rw [hr] at hf
      cases hf
      obtain ⟨found, hf, hdone⟩ := h.reliance.committed hr hcom hrelied
      rw [hr'] at hf
      cases hf
      simp [haborted] at hdone
    refine ⟨hnot, fun hgone => ?_⟩
    have hdone := h.agrees.gone hr hgone
    cases houtcome : r.outcome <;> simp_all
  case counted => exact h.edges.counter
  case once => exact ⟨h.edges.registered_once, h.edges.notified_once, h.edges.notified_subset⟩
  case kept =>
    intro id x hm hopen
    obtain ⟨tx, htx, hwaits | hpanicked⟩ := h.edges.place hm hopen
    · refine ⟨tx, htx, ?_⟩
      obtain hset | htell := mem_append.mp hwaits
      · refine .inr ⟨hset, Bool.not_eq_true _ ▸ fun hdecided => ?_, (htells _ _ htx).alive⟩
        simp [(htells _ _ htx).taken hdecided] at hset
      · exact .inl htell
    · exact absurd hpanicked (htells _ _ htx).alive
  case earlier =>
    intro id x hm
    obtain ⟨r, r', endTs, hr, hr', he, hlt⟩ := h.ended_of_depends (.single hm)
    exact ⟨r, r', endTs, hr, hr', he, hlt, fun hts => hlt.trans (h.agrees.begin_lt_end hr hts)⟩
  case acyclic =>
    intro id hcycle
    obtain ⟨r, r', endTs, hr, hr', he, hlt⟩ := h.ended_of_depends hcycle
    rw [hr] at hr'
    cases hr'
    exact lt_asymm hlt (h.agrees.begin_lt_end hr he)

/-- In a run that forgets no dependent, every transaction keeps those it has to tell. -/
theorem System.Reaches.tells (h : System.Reaches conflictKey steps s)
    (hkeeps : ∀ before taken s, before ++ [taken] <+: steps →
      System.Reaches conflictKey before s → s.KeepsDependents taken) : s.Tells := by
  induction steps using reverseRecOn generalizing s with
  | nil =>
    cases h
    exact tells_empty
  | append_singleton before taken ih =>
    obtain ⟨middle, hb, hlast⟩ := run_append_iff.mp h
    have hstep := transition_of_step (run_singleton_iff.mp hlast)
    have hsound : middle.Sound := System.Reaches.sound hb
    have htells : middle.Tells := ih hb fun before taken s hpart =>
      hkeeps before taken s (hpart.trans (prefix_append ..))
    exact htells.step hsound.agrees hsound.stamps hsound.reliance
      (hkeeps before taken middle (prefix_refl _) hb) hstep

/-- A commit that is finished for an abandoned transaction leaves its dependents untold. -/
theorem System.Sound.not_dependenciesHold (h : s.Sound) {tx : Transaction RowId Row}
    (hstep : s.step conflictKey (.finalizeCommit id) = some s') (htx : s.store.txs id = some tx)
    (habandoned : tx.abandoned) (hset : tx.commitDepSet ≠ []) : ¬ s'.DependenciesHold := by
  intro hholds
  obtain ⟨dependent, hdependent⟩ := exists_mem_of_ne_nil _ hset
  obtain ⟨hm, hopen⟩ := h.edges.waiting htx (mem_append_left _ hdependent)
  have ht := transition_of_step hstep
  generalize htaken : Step.finalizeCommit id = taken at ht
  cases ht with
  | fail _ hs => obtain ⟨-, rfl⟩ | ⟨-, rfl⟩ := hs <;> cases htaken
  | finalizeCommit hf _ hnot =>
    cases htaken
    rw [htx] at hf
    cases hf
    simp [hnot] at habandoned
  | finishAbandoned hf hs =>
    cases htaken
    rw [htx] at hf
    cases hf
    obtain ⟨tx', htx', hwaits⟩ := hholds.kept hm hopen
    obtain rfl := eq_of_modifyTx_self htx' htx
    have hsilent := h.edges.silent htx (by rw [hs]; rfl)
    simp [hsilent, CommitState.tells] at hwaits
  | _ => cases htaken

/-- Commit dependencies do what they are for in every state of a run exactly if no step of the run
finishes the commit of an abandoned transaction that others depend on. -/
theorem dependenciesHold_iff (hrun : System.Reaches conflictKey steps s') :
    (∀ before s, before <+: steps → System.Reaches conflictKey before s → s.DependenciesHold) ↔
      ∀ before taken s, before ++ [taken] <+: steps → System.Reaches conflictKey before s →
        s.KeepsDependents taken := by
  constructor
  · intro hholds before taken s hpart hreaches
    -- the run goes on from `s` by the step `taken`
    obtain ⟨after, rfl⟩ := hpart
    obtain ⟨next, hnext, -⟩ := run_append_iff.mp hrun
    obtain ⟨middle, hbefore, hlast⟩ := run_append_iff.mp hnext
    obtain rfl : middle = s := Run.unique
      (fun h h' => Option.some.inj (h.symm.trans h')) hbefore hreaches
    have hstep := run_singleton_iff.mp hlast
    have hafter := hholds _ _ (prefix_append ..) hnext
    cases taken with
    | finalizeCommit id =>
      intro tx htx habandoned
      by_contra hset
      exact (System.Reaches.sound hreaches).not_dependenciesHold hstep htx habandoned hset hafter
    | _ => trivial
  · intro hkeeps before s hpart hreaches
    refine (System.Reaches.sound hreaches).dependenciesHold (hreaches.tells ?_)
    exact fun before taken s hshorter => hkeeps before taken s (hshorter.trans hpart)

end Run

/-- A writer reaches the log, and a reader that began later takes its outcome for granted. -/
def speculativeRead : List (Step ℕ ℕ) :=
  [.beginTx, .start 0 5 .read, .finish 0, .insert 0 5 42 false, .prepare 0, .nextRow 0,
    .start 0 5 .validate, .finish 0, .nextRow 0, .waitForDependencies 0, .dependenciesResolved 0,
    .beginTx, .start 1 5 .read, .load 1, .register 1, .finish 1]

/-- The writer aborts, and the reader is told. -/
theorem dependenciesHold_iff_writerAborts :
    (∃ s, System.run some (speculativeRead ++ [.abort 0, .notify 0]) = some s ∧
      s.history.notified = [(1, 0)] ∧ (s.store.txs 1).map (·.abortNow) = some true) ∧
    ∀ before s, before <+: speculativeRead ++ [.abort 0, .notify 0] →
      System.Reaches some before s → s.DependenciesHold := by
  have hrun : (System.run some (speculativeRead ++ [.abort 0, .notify 0])).map
      (fun s => (s.history.notified, (s.store.txs 1).map (·.abortNow))) =
        some ([(1, 0)], some true) := by
    decide +kernel
  obtain ⟨s, hs, hfacts⟩ := Option.map_eq_some_iff.mp hrun
  obtain ⟨hnotified, habort⟩ := Prod.mk.inj hfacts
  refine ⟨⟨s, hs, hnotified, habort⟩, (dependenciesHold_iff (System.reaches_iff.mpr hs)).mpr ?_⟩
  intro before taken s hpart _
  have htaken : taken ∈ speculativeRead ++ [.abort 0, .notify 0] := hpart.subset (by simp)
  cases taken with
  | finalizeCommit id => simp [speculativeRead] at htaken
  | _ => trivial

/-- The statement of the writer is dropped and the leader of its group finishes the commit. -/
def abandonedCommit : List (Step ℕ ℕ) :=
  speculativeRead ++ [.abandon 0, .commitEnd 0, .rewriteLiveVersions 0, .finalizeCommit 0,
    .removeTx 0]

/-- The reader waits for a transaction that no longer knows whom to tell. -/
theorem dependent_forgotten : ∃ s, System.Reaches some abandonedCommit s ∧
      s.history.registered = [(1, 0)] ∧ s.history.notified = [] ∧
      (s.store.txs 0).map (fun tx => (tx.commitState, tx.dependents)) = some (.panicked, []) ∧
      (s.store.txs 1).map (·.commitDepCounter) = some 1 ∧ ¬ s.DependenciesHold := by
  have hedges : (System.run some abandonedCommit).map
      (fun s => (s.history.registered, s.history.notified)) = some ([(1, 0)], []) := by
    decide +kernel
  have hentries : (System.run some abandonedCommit).map (fun s =>
      ((s.store.txs 0).map (fun tx => (tx.commitState, tx.dependents)),
        (s.store.txs 1).map (·.commitDepCounter))) = some (some (.panicked, []), some 1) := by
    decide +kernel
  obtain ⟨s, hs, hhistory⟩ := Option.map_eq_some_iff.mp hedges
  rw [hs, Option.map_some, Option.some_inj] at hentries
  obtain ⟨hregistered, hnotified⟩ := Prod.mk.inj hhistory
  obtain ⟨hforgotten, hcounter⟩ := Prod.mk.inj hentries
  refine ⟨s, System.reaches_iff.mpr hs, hregistered, hnotified, hforgotten, hcounter, ?_⟩
  intro hholds
  obtain ⟨tx, htx, hwaits⟩ := @System.DependenciesHold.kept _ _ s hholds 1 0
    (by simp [hregistered]) (by simp [hnotified])
  simp_all [dependents]

end Turso.Mvcc
