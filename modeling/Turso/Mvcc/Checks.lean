import Turso.Mvcc.Answers

/-!
# Checks that are under way

A session may be interrupted at every question.  What is left of its check ensures the right
finding, for the answers that are possible in whatever history follows (`System.Checks`); and every
answer that a step gives is possible in whatever history follows (`System.Agrees.confirms`).
-/

namespace Turso.Mvcc

open History

variable {RowId Row Key : Type}

namespace History

variable (history : History RowId Row)
variable {r : RowId} {purpose : Purpose Row} (me : TxId)

/-- The transactions that commit if `me` does. -/
def Trusts (id : TxId) : Prop :=
  ∀ survivors, history.Viable survivors → me ∈ survivors → id ∈ survivors

/-- The answers that a check of `me` may get. -/
def Possible : Purpose Row → ∀ question : Question, question.Answer → Prop
  | .read | .probeBtree | .delete _ => history.Operating me (history.beginOf me) (history.Trusts me)
  | .validate => history.Validating ((history.endOf me).getD 0)

/-- What a check of `me` over the given versions comes to. -/
def Finds (versions : List (RowVersion Row)) : ∀ purpose : Purpose Row, purpose.Finding → Prop
  | .read, found => history.Reads me (history.Trusts me) versions.reverse found
  | .probeBtree, _ => True
  | .delete _, outcome => history.Deletes me (history.Trusts me) versions.reverse outcome
  | .validate, conflict => conflict = false → ∀ version ∈ versions,
      history.Passes me (history.beginOf me) ((history.endOf me).getD 0) version

end History

/-- What is left of a check ensures the right finding. -/
structure System.Checks (s : System RowId Row) : Prop where
  ensures : ∀ {id tx session later}, s.store.txs id = some tx → tx.session = some session →
    s.history.Evolves s.store.clock later → later.times.Proper →
      session.check.Ensures (later.Possible id session.purpose)
        (later.Finds id (s.store.rows session.row) session.purpose)

/-! ## Answers -/

section Answers
variable [DecidableEq RowId] {s : System RowId Row} {later : History RowId Row} {id x : TxId}
  {tx dependedOn : Transaction RowId Row}

section
variable (hev : s.history.Evolves s.store.clock later)
include hev

/-- What is loaded now is confirmed by every later history. -/
theorem System.Agrees.confirms (h : s.Agrees) (hx : s.store.txs x = some dependedOn)
    {since : Timestamp} (hsince : since ≤ s.store.clock) :
    later.Confirms since x (s.store.lookupTxState x) := by
  obtain ⟨r, hr, hmatches⟩ := h.known hx
  have hmatch := hmatches.state
  unfold MvStore.lookupTxState
  rw [hx]
  dsimp only
  cases hs : dependedOn.state with
  | active =>
    rw [hs] at hmatch
    intro ts he
    by_contra hle
    have ho := hev.endOf_of_le he ((not_lt.mp hle).trans hsince)
    rw [endOf_eq hr, hmatch.1] at ho
    cases ho
  | preparing ts =>
    rw [hs] at hmatch
    exact hev.endOf (endOf_eq_some.mpr ⟨r, hr, hmatch.1⟩)
  | committed ts =>
    rw [hs] at hmatch
    exact ⟨hev.endOf (endOf_eq_some.mpr ⟨r, hr, hmatch.1⟩), hev.has (by simp) ⟨r, hr, hmatch.2⟩⟩
  | aborted | terminated =>
    rw [hs] at hmatch
    exact hev.has (by simp) ⟨r, hr, hmatch⟩

theorem System.Agrees.beginOf (h : s.Agrees) (htx : s.store.txs id = some tx) :
    later.beginOf id = tx.beginTs ∧ tx.beginTs ≤ s.store.clock := by
  obtain ⟨r, hr, hmatches⟩ := h.known htx
  rw [hev.beginOf hr, beginOf_eq hr, ← hmatches.beginTs]
  exact ⟨rfl, h.begin_le hr⟩

/-- A transaction that is validated has its end, in every later history. -/
theorem System.Agrees.endOf_of_validate (h : s.Agrees) (htx : s.store.txs id = some tx)
    (hmay : tx.mayStart row .validate) :
    tx.state = .preparing tx.endTs ∧ later.endOf id = some tx.endTs ∧ tx.endTs ≤ s.store.clock := by
  obtain ⟨r, hr, hmatches⟩ := h.known htx
  obtain ⟨rows, chains, hcommit⟩ := Transaction.mayStart_validate.mp hmay
  have hfits := hmatches.commitState
  rw [hcommit] at hfits
  obtain ⟨endTs, hpreparing⟩ := hfits
  have hmatch := hmatches.state
  rw [hpreparing] at hmatch
  have hendTs : tx.endTs = endTs := by simp [Transaction.endTs, hpreparing]
  rw [hendTs]
  exact ⟨hpreparing, hev.endOf (endOf_eq_some.mpr ⟨r, hr, hmatch.1⟩), h.end_le hr hmatch.1⟩

/-- What is known of the chains, for a transaction that may still be rolled back. -/
theorem System.Stamps.explains (h : s.Stamps) (hagrees : s.Agrees)
    (htx : s.store.txs id = some tx) (hs : tx.state.isRollbackable) (row : RowId) :
    later.Explains id tx.beginTs (s.store.rows row) := by
  obtain ⟨r, hr, hmatches⟩ := hagrees.known htx
  obtain ⟨hbg, hle⟩ := hagrees.beginOf hev htx
  refine ⟨hbg, fun x he => ?_, fun hm hcarries => ?_⟩
  · obtain ⟨found, hf, he⟩ := endOf_eq_some.mp (hev.endOf_of_le he hle)
    exact hagrees.begin_ne_end hr hf (hmatches.beginTs ▸ he)
  · obtain ⟨x, found, hender, hf, hcom⟩ := h.timed hm hcarries
    refine ⟨x, ?_, hev.ender hender, ?_, hev.has (by simp) ⟨found, hf, hcom⟩⟩
    · rintro rfl
      have hpending := hagrees.pending htx hs hf
      rw [hcom] at hpending
      cases hpending
    · exact hev.endOf (endOf_eq_some.mpr (hagrees.ender_iff.mp hender))

omit [DecidableEq RowId] in
/-- The order of creators and deleters holds later as well. -/
theorem System.Stamps.ordered (h : s.Stamps) {version : RowVersion Row}
    (hm : version ∈ s.store.rows r) (hordered : s.history.Ordered version) :
    later.Ordered version := by
  intro c d hc hd hne
  rw [h.image_eq hm hev] at hc hd
  obtain ⟨hb, hkeeps⟩ := hordered c d hc hd hne
  exact ⟨hev.before hb, fun sv hviable =>
    hkeeps sv (hviable.earlier hev)⟩

end

/-- Only an active transaction itself deletes what it created. -/
theorem System.Stamps.own (h : s.Stamps) (hagrees : s.Agrees) (htx : s.store.txs id = some tx)
    (hactive : tx.state = .active) {v : RowVersion Row} (hm : v ∈ s.store.rows row)
    (hordered : s.history.Ordered v) (hbg : v.beginning = some (.txId id)) :
    v.ending = none ∨ v.ending = some (.txId id) := by
  obtain ⟨r, hr, -⟩ := hagrees.known htx
  have hopen : s.history.endOf id = none := by
    rw [endOf_eq hr, (hagrees.active htx hactive hr).1]
  cases he : v.ending with
  | none => exact .inl rfl
  | some stamp =>
    obtain ⟨deleter, hwriter⟩ := h.writer hm (.inr he)
    have hdeleter : (s.history.image v).deleter = some deleter := by
      simpa [image, he] using hwriter
    by_cases hself : id = deleter
    · subst hself
      cases stamp with
      | txId found => exact .inr (by simpa [History.writer] using hwriter)
      | timestamp ts =>
        have hended := endOf_eq_some.mpr (hagrees.ender_iff.mp hwriter)
        simp [hopen] at hended
    · obtain ⟨ts, hended, -⟩ := before_iff.mp
        (hordered id deleter (by simp [History.image, hbg, History.writer]) hdeleter hself).1
      simp [hopen] at hended

end Answers

/-! ## Sessions -/

section Sessions
section Possible
variable {history : History RowId Row} {id other : TxId}

theorem History.trusts_of_committed
    (hcom : history.Has .committed other) : history.Trusts id other :=
  fun _ hviable _ => hviable.committed hcom

theorem History.possible_of_operation (hpurpose : purpose ≠ .validate) :
    history.Possible id purpose =
      history.Operating id (history.beginOf id) (history.Trusts id) := by
  cases purpose <;> first | rfl | exact absurd rfl hpurpose

end Possible

variable [DecidableEq RowId] [DecidableEq Key] {conflictKey : RowId → Option Key}
  {s s' : System RowId Row} {taken : Step RowId Row} {later : History RowId Row} {id : TxId}
  {tx : Transaction RowId Row}

/-- The check of a session that is opened ensures the right finding. -/
theorem System.Stamps.check_ensures (h : s.Stamps) (hagrees : s.Agrees)
    (hordered : ∀ {row v}, v ∈ s.store.rows row → s.history.Ordered v)
    (htx : s.store.txs id = some tx) (hmay : tx.mayStart row purpose)
    (hev : s.history.Evolves s.store.clock later) (hproper : later.times.Proper) :
    (purpose.check id tx (s.store.rows row)).Ensures (later.Possible id purpose)
      (later.Finds id (s.store.rows row) purpose) := by
  obtain ⟨hbg, -⟩ := hagrees.beginOf hev htx
  have hsubset : (s.store.rows row).reverse ⊆ s.store.rows row := fun _ => List.mem_reverse.mp
  have hexplains : tx.state = .active →
      later.Explains id (later.beginOf id) (s.store.rows row) := fun hactive =>
    hbg.symm ▸ h.explains hev hagrees htx (by rw [hactive]; rfl) row
  have hown : tx.state = .active → ∀ v ∈ s.store.rows row, v.beginning = some (.txId id) →
        v.ending = none ∨ v.ending = some (.txId id) := fun hactive v hm =>
    h.own hagrees htx hactive hm (hordered hm)
  cases purpose with
  | read =>
    have hactive : tx.state = .active := by simpa [Transaction.mayStart] using hmay
    simp only [Purpose.check, ← hbg]
    exact findVisible_ensures (hexplains hactive) hsubset
      (fun _ => trusts_of_committed) (hown hactive)
  | probeBtree => exact .trivial _
  | delete r =>
    have hactive : tx.state = .active := by simpa [Transaction.mayStart] using hmay
    simp only [Purpose.check, ← hbg]
    exact findDeletable_ensures (hexplains hactive) hsubset
      (fun _ => trusts_of_committed) (hown hactive)
  | validate =>
    obtain ⟨hpreparing, he, -⟩ := hagrees.endOf_of_validate hev htx hmay
    have hcheck := checkVersionConflicts_ensures hproper
      (h.explains hev hagrees htx (by rw [hpreparing]; rfl) row) he hsubset
      fun v hm => h.ordered hev hm (hordered hm)
    simp only [Purpose.check, Possible, he, Option.getD_some]
    refine hcheck.imp fun conflict hf => ?_
    rintro rfl v hm
    rw [hbg, he]
    exact hf v (List.mem_reverse.mpr hm)

section
variable (h : s.Agrees) (htx : s.store.txs id = some tx) {ss : Session RowId Row}
  (hss : tx.session = some ss) {x : TxId} {dependedOn : Transaction RowId Row}
  (hx : s.store.txs x = some dependedOn) (hev : s.history.Evolves s.store.clock later)
include h htx hss hx hev

/-- A state that is loaded is a possible answer, whatever follows. -/
theorem System.Agrees.possible_load
    (htrusts : speculates tx.beginTs (s.store.lookupTxState x) → later.Trusts id x) :
    later.Possible id ss.purpose (.load x) (s.store.lookupTxState x) := by
  by_cases hpurpose : ss.purpose = .validate
  · rw [hpurpose]
    trivial
  obtain ⟨hbg, hle⟩ := h.beginOf hev htx
  rw [possible_of_operation hpurpose, hbg]
  refine ⟨h.confirms hev hx hle, htrusts, ?_⟩
  rintro rfl
  rw [MvStore.lookupTxState, htx]
  exact congrArg some (h.active_of_session htx hss hpurpose)

theorem System.Agrees.possible_inspect :
    later.Possible id ss.purpose (.inspect x) (s.store.lookupTxState x) := by
  by_cases hpurpose : ss.purpose = .validate
  · obtain ⟨r, -, hmatches⟩ := h.known htx
    have hmay := hmatches.session ss hss
    rw [hpurpose] at hmay ⊢
    obtain ⟨-, he, hle⟩ := h.endOf_of_validate hev htx hmay
    refine h.confirms hev hx ?_
    rwa [he]
  · obtain ⟨hbg, hle⟩ := h.beginOf hev htx
    rw [possible_of_operation hpurpose]
    exact h.confirms hev hx (hbg ▸ hle)

end

theorem Transition.clock_le (ht : Transition conflictKey s taken s') :
    s.store.clock ≤ s'.store.clock := by
  cases ht with
  | beginTx | tick | prepare => exact Nat.le_succ _
  | _ => exact le_rfl

/-- A check asks about the stamps of its chain, so who is asked for is in the map. -/
theorem System.Reliance.asked (h : s.Reliance) (hagrees : s.Agrees) (hstamps : s.Stamps)
    (htx : s.store.txs id = some tx) {question : Question}
    {next : question.Answer → Check purpose.Finding}
    (hss : tx.session = some ⟨row, purpose, .ask question next⟩) {x : TxId}
    (hquestion : question = .load x ∨ question = .inspect x) :
    ∃ dependedOn, s.store.txs x = some dependedOn := by
  obtain ⟨r, hr, -⟩ := hagrees.known htx
  obtain ⟨due, hsecures⟩ := h.secured htx hr
  obtain ⟨hallowed, -⟩ := hsecures.conforms _ hss
  have hcarried : ∃ v ∈ s.store.rows row, v.Carries (.txId x) := by
    obtain rfl | rfl := hquestion <;> cases due with
    | none => exact hallowed
    | some due => cases hallowed
  obtain ⟨v, hm, hcarries⟩ := hcarried
  obtain ⟨dependedOn, hx, -⟩ := hstamps.owed hm hcarries
  exact ⟨dependedOn, hx⟩

theorem System.Checks.step (h : s.Checks) (hagrees : s.Agrees) (hstamps : s.Stamps)
    (hlocks : s.Locks) (hreliance : s.Reliance)
    (hordered : ∀ {row v}, v ∈ s.store.rows row → s.history.Ordered v)
    (ht : Transition conflictKey s taken s') : s'.Checks := by
  constructor
  intro id tx' ss later htx' hss' hev' hproper
  have hev := (ht.evolves hagrees).trans hev' ht.clock_le
  obtain ⟨-, -, rfl⟩ | ⟨tx, htx, -, hmoves⟩ := ht.entry_origin htx'
  · cases hss'
  -- the chain is the same as before, if the session was open
  have hrows : ∀ {old}, tx.session = some old →
      s'.store.rows old.row = s.store.rows old.row := fun hopen =>
    ht.rows_of_session hagrees hlocks htx hopen htx' (by simp [hss'])
  rw [hss'] at hmoves
  cases hmoves with
  | stay htaken hss =>
    rw [hrows hss]
    exact h.ensures htx hss hev hproper
  | @start row purpose htaken hss hsame hhistory =>
    subst htaken
    cases ht with
    | fail htx hs => simp at hs
    | start hf hno hmay hlock =>
      rw [htx] at hf
      cases hf
      exact hstamps.check_ensures hagrees hordered htx hmay hev hproper
  | @load row purpose x next htaken hss hhistory =>
    have hnx := h.ensures htx hss hev hproper
    obtain ⟨dependedOn, hx⟩ := hreliance.asked hagrees hstamps htx hss (.inl rfl)
    rw [hrows hss]
    refine hnx _ (hagrees.possible_load htx hss hx hev fun hspeculates => ?_)
    -- what is taken for granted was recorded
    obtain ⟨r, hr, -⟩ := hagrees.known htx
    obtain ⟨r', hr', -⟩ := (ht.evolves hagrees).records hr
    obtain ⟨record'', hrecord'', hrs⟩ := hev'.records hr'
    refine fun _ hviable hsv => hviable.relied hrecord'' hsv (hrs.relied ?_)
    rw [load_relied hr (hhistory ▸ hr'), if_pos hspeculates]
    exact List.mem_cons_self ..
  | @inspect row purpose x next htaken hss hhistory =>
    have hnx := h.ensures htx hss hev hproper
    obtain ⟨dependedOn, hx⟩ := hreliance.asked hagrees hstamps htx hss (.inr rfl)
    rw [hrows hss]
    exact hnx _ (hagrees.possible_inspect htx hss hx hev)
  | @register row purpose x next htaken hss hs' =>
    have hnx := h.ensures htx hss hev hproper
    rw [hrows hss]
    refine hnx () ?_
    cases purpose <;> trivial

end Sessions

end Turso.Mvcc
