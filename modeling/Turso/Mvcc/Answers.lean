import Turso.Mvcc.Images

/-!
# What the checks find out

The answers that a check gets come from different times.  Each of them still holds in every later
history: who had an end keeps it, and who was active ends after the time of the answer.  So what a
check finds is right in the history in which it comes to its end (`findVisible_ensures`,
`findDeletable_ensures`, `checkVersionConflicts_ensures`).
-/

namespace Turso.Mvcc

open Snapshot History Option List

open Interaction (Program)

variable {RowId Row : Type}

namespace History

variable (history : History RowId Row)

/-- What a state that was loaded says of a transaction later.  Who was active ends after `since`. -/
def Confirms (since : Timestamp) (id : TxId) : Option TransactionState → Prop
  | some .active => ∀ ts, history.endOf id = some ts → since < ts
  | some (.preparing ts) => history.endOf id = some ts
  | some (.committed ts) => history.endOf id = some ts ∧ history.Has .committed id
  | some .aborted | some .terminated => history.Has .aborted id
  | none => False

variable (me : TxId) (beginTs : Timestamp)

/-- The answers that an active transaction `me` may get.  It trusts those whose outcome it takes
for granted. -/
def Operating (trusts : TxId → Prop) : ∀ question : Question, question.Answer → Prop
  | .load id, answer => history.Confirms beginTs id answer ∧
      (speculates beginTs answer → trusts id) ∧ (id = me → answer = some .active)
  | .inspect id, answer => history.Confirms beginTs id answer
  | .register _, _ => True

variable (endTs : Timestamp)

/-- The answers that a transaction may get that is preparing with the end `endTs`. -/
def Validating : ∀ question : Question, question.Answer → Prop
  | .inspect id, answer => history.Confirms endTs id answer
  | .load _, _ | .register _, _ => True

variable (trusts : TxId → Prop)

/-- What `id` did counts for `me`. -/
def Done (id : TxId) : Prop :=
  id = me ∨ history.times.Before id me ∧ trusts id

/-- What `id` did does not count for `me`. -/
def Undone (id : TxId) : Prop :=
  id ≠ me ∧ (history.times.Before id me → history.Has .aborted id)

variable (version : RowVersion Row)

/-- The version is there for `me`. -/
structure Surfaces : Prop where
  created : ∃ creator, (history.image version).creator = some creator ∧
    history.Done me trusts creator
  kept : ∀ deleter, (history.image version).deleter = some deleter → history.Undone me deleter

/-- The version is not there for `me`. -/
def Hides : Prop :=
  (∀ creator, (history.image version).creator = some creator → history.Undone me creator) ∨
    ∃ deleter, (history.image version).deleter = some deleter ∧ history.Done me trusts deleter

/-- The version carries no stamp of a transaction that ended between the begin and the end of
`me`, as far as it may survive. -/
def Passes (version : RowVersion Row) : Prop :=
  ∀ survivors, history.Viable survivors → ∀ id ∈ survivors, id ≠ me →
    (history.image version).creator = some id ∨ (history.image version).deleter = some id →
      ∀ ts, history.endOf id = some ts → ts < endTs → ¬ beginTs < ts

variable (versions : List (RowVersion Row))

/-- What a search for a visible version comes to. -/
def Reads : Option (RowVersion Row) → Prop
  | some version => version ∈ versions ∧ history.Surfaces me trusts version
  | none => ∀ version ∈ versions, history.Hides me trusts version

/-- What a search for a version to delete comes to: it is there and no survivor has deleted it. -/
def Deletes : DeleteOutcome → Prop
  | .conflict => True
  | .found target => ∃ version ∈ versions, version.id = target ∧
      history.Surfaces me trusts version ∧
        ∀ deleter, (history.image version).deleter = some deleter → history.Has .aborted deleter
  | .absent => ∀ version ∈ versions, history.Hides me trusts version

/-- What is known of the versions over which `me` runs a check. -/
structure Explains : Prop where
  begins : history.beginOf me = beginTs
  untied : ∀ id, history.endOf id ≠ some beginTs
  timed : ∀ {version ts}, version ∈ versions → version.Carries (.timestamp ts) →
    ∃ id, id ≠ me ∧ history.ender ts = some id ∧ history.endOf id = some ts ∧
      history.Has .committed id

end History

variable {history : History RowId Row} {me id : TxId} {beginTs endTs ts : Timestamp}
  {trusts : TxId → Prop} {version : RowVersion Row} {vs scanned : List (RowVersion Row)}

/-! ## Views of the survivors -/

section Views
variable {sv : Set TxId}

theorem History.Done.inView (h : history.Done me trusts id) (htrusts : ∀ id, trusts id → id ∈ sv) :
    InView history.times sv me id :=
  h.imp_right fun ⟨hb, htrusted⟩ => ⟨htrusts id htrusted, hb⟩

theorem History.Undone.not_inView (h : history.Undone me id) (hviable : history.Viable sv) :
    ¬ InView history.times sv me id := by
  rintro (rfl | ⟨hsv, hb⟩)
  · exact h.1 rfl
  · exact hviable.aborted (h.2 hb) hsv

theorem History.Surfaces.seen (h : history.Surfaces me trusts version)
    (hviable : history.Viable sv) (htrusts : ∀ id, trusts id → id ∈ sv) :
    Seen history.times sv me (history.image version) := by
  obtain ⟨c, hc, hdone⟩ := h.created
  exact ⟨⟨c, hc, hdone.inView htrusts⟩, fun d hd => (h.kept d hd).not_inView hviable⟩

theorem History.Hides.not_seen (h : history.Hides me trusts version)
    (hviable : history.Viable sv) (htrusts : ∀ id, trusts id → id ∈ sv) :
    ¬ Seen history.times sv me (history.image version) := by
  rintro ⟨⟨c, hc, hview⟩, hkept⟩
  obtain hundone | ⟨d, hd, hdone⟩ := h
  · exact (hundone c hc).not_inView hviable hview
  · exact hkept d hd (hdone.inView htrusts)

end Views

/-! ## Answers and timestamps -/

section Answers

section
variable (h : history.Explains me beginTs vs) (he : history.endOf id = some ts)
include h he

theorem History.Explains.before_iff : history.times.Before id me ↔ ts < beginTs := by
  rw [History.before_iff, h.begins, he]
  simp

theorem History.Explains.lt_of_not_lt (hnot : ¬ beginTs < ts) : ts < beginTs := by
  refine lt_of_le_of_ne (not_lt.mp hnot) ?_
  rintro rfl
  exact h.untied id he

/-- Who ended before the begin counts, if it is trusted. -/
theorem History.Explains.done (hlt : ts < beginTs) (htrusted : trusts id) :
    history.Done me trusts id :=
  .inr ⟨(h.before_iff he).mpr hlt, htrusted⟩

/-- Who did not end before the begin does not count. -/
theorem History.Explains.undone (hnot : ¬ ts < beginTs) (hne : id ≠ me) : history.Undone me id :=
  ⟨hne, fun hb => absurd ((h.before_iff he).mp hb) hnot⟩

end

/-- Who was active when it was asked does not count, other than `me`. -/
theorem History.Explains.undone_of_active (h : history.Explains me beginTs vs)
    (hactive : history.Confirms beginTs id (some .active)) (hne : id ≠ me) :
    history.Undone me id := by
  refine ⟨hne, fun hb => ?_⟩
  obtain ⟨ts, he, hlt⟩ := History.before_iff.mp hb
  rw [h.begins] at hlt
  exact absurd hlt (hactive ts he).not_gt

/-- An answer other than that `me` is active is about another transaction. -/
theorem ne_of_answer {answer : Option TransactionState} (hself : id = me → answer = some .active)
    (hanswer : answer ≠ some .active) : id ≠ me :=
  fun heq => hanswer (hself heq)

end Answers

variable {stamp : TxTimestampOrId}

theorem image_creator (hbegin : version.beginning = some stamp) :
    (history.image version).creator = history.writer stamp := by
  simp [image, hbegin]

theorem image_deleter (hstamp : version.ending = some stamp) :
    (history.image version).deleter = history.writer stamp := by
  simp [image, hstamp]

/-! ## Visibility -/

section Visibility

section
variable (h : history.Explains me beginTs vs) (hm : version ∈ vs)
  (htrusts : ∀ id, history.Has .committed id → trusts id)
include h hm htrusts

theorem isBeginVisible_ensures (hown : version.beginning = some (.txId me) →
      version.ending = none ∨ version.ending = some (.txId me)) :
    (isBeginVisible me beginTs version).Ensures (history.Operating me beginTs trusts) fun
      | true => ∃ creator, (history.image version).creator = some creator ∧
          history.Done me trusts creator
      | false => history.Hides me trusts version := by
  have hhides : ∀ {stamp creator}, version.beginning = some stamp →
      history.writer stamp = some creator → history.Undone me creator →
        history.Hides me trusts version := by
    intro stamp creator hbegin hwriter hundone
    refine .inl fun found hf => ?_
    rw [image_creator hbegin, hwriter] at hf
    exact some.inj hf ▸ hundone
  unfold isBeginVisible
  split
  next ts hbegin =>
    obtain ⟨id, hne, hender, he, hcom⟩ := h.timed hm (.inl hbegin)
    refine .of_decide (fun hlt => ?_) (fun hlt => ?_)
    · exact ⟨id, (image_creator hbegin).trans hender, h.done he hlt (htrusts id hcom)⟩
    · exact hhides hbegin hender (h.undone he hlt hne)
  next creator hbegin =>
    rintro answer ⟨hconfirms, hspeculates, hself⟩
    rcases answer with _ | ⟨⟩ | endTs | ⟨⟩ | ⟨⟩ | ts
    case none => exact hconfirms.elim
    case some.active =>
      refine .of_decide ?_ (fun hnot => ?_)
      · rintro ⟨rfl, -⟩
        exact ⟨me, image_creator hbegin, .inl rfl⟩
      by_cases hme : creator = me
      · -- its own version that it has deleted
        subst hme
        have hdeleted := (hown hbegin).resolve_left fun hno => hnot ⟨rfl, hno⟩
        exact .inr ⟨creator, by simp [image, hdeleted, writer], .inl rfl⟩
      · exact hhides hbegin rfl (h.undone_of_active hconfirms hme)
    case some.preparing =>
      show Program.Ensures _ _ (if endTs < beginTs then _ else _)
      split
      next hlt =>
        intro _ _
        exact ⟨creator, image_creator hbegin, h.done hconfirms hlt (hspeculates (by simp [speculates, hlt]))⟩
      next hlt =>
        exact hhides hbegin rfl (h.undone hconfirms hlt (ne_of_answer hself (by simp)))
    case some.committed =>
      refine .of_decide (fun hlt => ?_) (fun hlt => ?_)
      · exact ⟨creator, image_creator hbegin, h.done hconfirms.1 hlt (htrusts creator hconfirms.2)⟩
      · exact hhides hbegin rfl (h.undone hconfirms.1 hlt (ne_of_answer hself (by simp)))
    all_goals exact hhides hbegin rfl ⟨ne_of_answer hself (by simp), fun _ => hconfirms⟩
  next hbegin =>
    refine .inl fun creator hf => ?_
    simp [image, hbegin] at hf

theorem isEndVisible_ensures :
    (isEndVisible me beginTs version).Ensures (history.Operating me beginTs trusts) fun
      | true => ∀ deleter, (history.image version).deleter = some deleter →
          history.Undone me deleter
      | false => ∃ deleter, (history.image version).deleter = some deleter ∧
          history.Done me trusts deleter := by
  have hkept : ∀ {stamp deleter}, version.ending = some stamp →
      history.writer stamp = some deleter → history.Undone me deleter →
        ∀ found, (history.image version).deleter = some found → history.Undone me found := by
    intro stamp deleter he hwriter hundone found hf
    rw [image_deleter he, hwriter] at hf
    exact some.inj hf ▸ hundone
  unfold isEndVisible
  split
  next ts hstamp =>
    obtain ⟨id, hne, hender, he, hcom⟩ := h.timed hm (.inr hstamp)
    refine .of_decide (fun hlt => ?_) (fun hlt => ?_)
    · exact hkept hstamp hender (h.undone he hlt.not_gt hne)
    · exact ⟨id, (image_deleter hstamp).trans hender, h.done he (h.lt_of_not_lt he hlt) (htrusts id hcom)⟩
  next deleter hstamp =>
    rintro answer ⟨hconfirms, hspeculates, hself⟩
    rcases answer with _ | ⟨⟩ | endTs | ⟨⟩ | ⟨⟩ | ts
    case none => exact hconfirms.elim
    case some.active =>
      refine .of_decide (fun hme => ?_) (fun hme => ?_)
      · exact hkept hstamp rfl (h.undone_of_active hconfirms (Ne.symm hme))
      · exact ⟨deleter, image_deleter hstamp, .inl (not_not.mp hme).symm⟩
    case some.preparing =>
      show Program.Ensures _ _ (if beginTs < endTs then _ else _)
      split
      next hlt =>
        exact hkept hstamp rfl (h.undone hconfirms hlt.not_gt (ne_of_answer hself (by simp)))
      next hlt =>
        have hearlier := h.lt_of_not_lt hconfirms hlt
        intro _ _
        exact ⟨deleter, image_deleter hstamp,
          h.done hconfirms hearlier (hspeculates (by simp [speculates, hearlier]))⟩
    case some.committed =>
      refine .of_decide (fun hlt => ?_) (fun hlt => ?_)
      · exact hkept hstamp rfl (h.undone hconfirms.1 hlt.not_gt (ne_of_answer hself (by simp)))
      · exact ⟨deleter, image_deleter hstamp, h.done hconfirms.1 (h.lt_of_not_lt hconfirms.1 hlt)
          (htrusts deleter hconfirms.2)⟩
    all_goals exact hkept hstamp rfl ⟨ne_of_answer hself (by simp), fun _ => hconfirms⟩
  next hstamp =>
    intro deleter hf
    simp [image, hstamp] at hf

theorem isVisibleTo_ensures (hown : version.beginning = some (.txId me) →
      version.ending = none ∨ version.ending = some (.txId me)) :
    (isVisibleTo me beginTs version).Ensures (history.Operating me beginTs trusts) fun
      | true => history.Surfaces me trusts version
      | false => history.Hides me trusts version := by
  refine (isBeginVisible_ensures h hm htrusts hown).bind fun visible hbg => ?_
  cases visible with
  | false => exact hbg
  | true =>
    refine (isEndVisible_ensures h hm htrusts).imp ?_
    rintro (_ | _) he
    · exact .inr he
    · exact ⟨hbg, he⟩

end

/-- A visible version without a conflict was deleted by nobody, or by one that aborted. -/
theorem isWriteWriteConflict_ensures (h : history.Explains me beginTs vs)
    (hm : version ∈ vs) (hsurfaces : history.Surfaces me trusts version) :
    (isWriteWriteConflict me beginTs version).Ensures (history.Operating me beginTs trusts) fun
      | true => True
      | false => ∀ deleter, (history.image version).deleter = some deleter →
          history.Has .aborted deleter := by
  unfold isWriteWriteConflict
  split
  next deleter hstamp =>
    split
    next hme => exact absurd hme (hsurfaces.kept deleter (image_deleter hstamp)).1
    intro answer hconfirms
    rcases answer with _ | ⟨⟩ | endTs | ⟨⟩ | ⟨⟩ | ts
    case some.aborted | some.terminated =>
      intro found hf
      rw [image_deleter hstamp] at hf
      exact some.inj hf ▸ hconfirms
    all_goals trivial
  next ts hstamp =>
    refine .of_decide (fun _ => trivial) fun hlt found hf => ?_
    obtain ⟨id, -, hender, he, -⟩ := h.timed hm (.inr hstamp)
    have heq := hf
    rw [image_deleter hstamp, writer, hender] at heq
    cases heq
    exact (hsurfaces.kept _ hf).2 ((h.before_iff he).mpr (h.lt_of_not_lt he hlt))
  next hother hstamp =>
    intro found hf
    have hno : version.ending = none := by
      cases he : version.ending with
      | none => rfl
      | some stamp => cases stamp <;> simp_all
    simp [image, hno] at hf

section
variable (h : history.Explains me beginTs vs) (hsubset : scanned ⊆ vs)
  (htrusts : ∀ id, history.Has .committed id → trusts id)
  (hown : ∀ version ∈ vs, version.beginning = some (.txId me) →
    version.ending = none ∨ version.ending = some (.txId me))
include h hsubset htrusts hown

/-- The search finds a version that is there, or there is none. -/
theorem findVisible_ensures :
    (findVisible me beginTs scanned).Ensures (history.Operating me beginTs trusts)
      (history.Reads me trusts scanned) := by
  induction scanned with
  | nil => exact nofun
  | cons newest older ih =>
    have hm := hsubset (mem_cons_self ..)
    refine (isVisibleTo_ensures h hm htrusts (hown newest hm)).bind fun visible hnewest => ?_
    cases visible with
    | true => exact ⟨mem_cons_self .., hnewest⟩
    | false =>
      refine (ih fun _ hm => hsubset (mem_cons_of_mem _ hm)).imp ?_
      rintro (_ | found) hf
      · exact forall_mem_cons.mpr ⟨hnewest, hf⟩
      · exact ⟨mem_cons_of_mem _ hf.1, hf.2⟩

theorem findDeletable_ensures :
    (findDeletable me beginTs scanned).Ensures (history.Operating me beginTs trusts)
      (history.Deletes me trusts scanned) := by
  induction scanned with
  | nil => exact nofun
  | cons newest older ih =>
    have hm := hsubset (mem_cons_self ..)
    refine (isVisibleTo_ensures h hm htrusts (hown newest hm)).bind fun visible hnewest => ?_
    cases visible with
    | true =>
      refine (isWriteWriteConflict_ensures h hm hnewest).bind fun conflict hconflict => ?_
      cases conflict with
      | true => trivial
      | false => exact ⟨newest, mem_cons_self .., rfl, hnewest, hconflict⟩
    | false =>
      refine (Program.Ensures.trivial _).bind fun conflict _ => ?_
      cases conflict with
      | true => trivial
      | false =>
        refine (ih fun _ hm => hsubset (mem_cons_of_mem _ hm)).imp ?_
        rintro (_ | target | _) hf
        · trivial
        · obtain ⟨version, hm, hf⟩ := hf
          exact ⟨version, mem_cons_of_mem _ hm, hf⟩
        · exact forall_mem_cons.mpr ⟨hnewest, hf⟩

end

end Visibility

/-! ## Validation -/

section Validation

/-- Versions are deleted by who began after their creator ended, and who relies on it. -/
def History.Ordered (history : History RowId Row) (version : RowVersion Row) : Prop :=
  ∀ creator deleter, (history.image version).creator = some creator →
    (history.image version).deleter = some deleter → creator ≠ deleter →
      history.times.Before creator deleter ∧
        ∀ survivors, history.Viable survivors → deleter ∈ survivors → creator ∈ survivors

/-- The transaction did not end before `endTs`, as far as it may survive. -/
def History.Outlasts (history : History RowId Row) (endTs : Timestamp) (id : TxId) : Prop :=
  history.Has .aborted id ∨ ∀ ts, history.endOf id = some ts → endTs ≤ ts

theorem History.Outlasts.not_lt (h : history.Outlasts endTs id) {sv : Set TxId}
    (hviable : history.Viable sv) (hsv : id ∈ sv)
    (he : history.endOf id = some ts) : ¬ ts < endTs := by
  obtain haborted | hlate := h
  · exact absurd hsv (hviable.aborted haborted)
  · exact (hlate ts he).not_gt

theorem beginConflicts_ensures :
    (beginConflicts me endTs version).Ensures (history.Validating endTs) fun
      | true => True
      | false => (∀ ts, version.beginning ≠ some (.timestamp ts)) ∧
          ∀ creator, version.beginning = some (.txId creator) → creator ≠ me →
            history.Outlasts endTs creator := by
  unfold beginConflicts
  split
  next other hbegin =>
    have hout : history.Outlasts endTs other → (∀ ts, version.beginning ≠ some (.timestamp ts)) ∧
        ∀ creator, version.beginning = some (.txId creator) → creator ≠ me →
          history.Outlasts endTs creator := by
      intro hout
      refine ⟨by simp [hbegin], fun creator hcreator _ => ?_⟩
      rw [hbegin] at hcreator
      cases hcreator
      exact hout
    split
    next hme =>
      refine ⟨by simp [hbegin], fun creator hcreator hne => ?_⟩
      rw [hbegin] at hcreator
      cases hcreator
      exact absurd hme hne
    intro answer hconfirms
    rcases answer with _ | ⟨⟩ | otherEndTs | ⟨⟩ | ⟨⟩ | ts
    case none => exact hconfirms.elim
    case some.committed => trivial
    case some.active => exact hout (.inr fun ts he => (hconfirms ts he).le)
    case some.preparing =>
      refine .of_decide (fun _ => trivial) fun hlt => hout (.inr fun ts he => ?_)
      rw [hconfirms] at he
      exact some.inj he ▸ not_lt.mp hlt
    all_goals exact hout (.inl hconfirms)
  · trivial
  next hbegin =>
    exact ⟨by simp [hbegin], by simp [hbegin]⟩

variable (hproper : history.times.Proper)

include hproper

theorem History.lt_of_before {x : TxId} {ts' : Timestamp}
    (hb : history.times.Before id x) (hts : history.endOf id = some ts)
    (hts' : history.endOf x = some ts') : ts < ts' := by
  obtain ⟨found, hf, hlt⟩ := before_iff.mp hb
  rw [hts] at hf
  cases hf
  exact hlt.trans (hproper.start_lt_stop hts')

/-- A version that was deleted before `me` began passes. -/
theorem History.Ordered.passes_of_deleted (hordered : history.Ordered version)
    {d : TxId}
    (hd : (history.image version).deleter = some d)
    (hts : history.endOf d = some ts) (hnot : ¬ beginTs < ts) :
    history.Passes me beginTs endTs version := by
  intro sv hviable id hsv hne hstamp ts' hts' hlt
  by_cases heq : id = d
  · subst heq
    rw [hts] at hts'
    cases hts'
    exact hnot
  · have hc : (history.image version).creator = some id :=
      hstamp.resolve_right fun hf => heq (some.inj (hf.symm.trans hd))
    have hb := (hordered id d hc hd heq).1
    exact fun hlater => hnot (hlater.trans (lt_of_before hproper hb hts' hts))

/-- A version passes whose creator did not end before `me`. -/
theorem History.Ordered.passes_of_creator (hordered : history.Ordered version)
    (he : history.endOf me = some endTs)
    (hbg : version.beginning = some stamp)
    (htimed : ∀ ts, version.beginning ≠ some (.timestamp ts))
    (hout : ∀ creator, version.beginning = some (.txId creator) → creator ≠ me →
      history.Outlasts endTs creator) : history.Passes me beginTs endTs version := by
  obtain ⟨creator, hbg⟩ : ∃ creator, version.beginning = some (.txId creator) := by
    cases stamp with
    | timestamp ts => exact absurd hbg (htimed ts)
    | txId creator => exact ⟨creator, hbg⟩
  have hcreator : (history.image version).creator = some creator := by
    simp [image, hbg, writer]
  intro survivors hviable id hsv hne hstamp ts hts hlt
  by_cases heq : id = creator
  · subst heq
    exact absurd hlt ((hout id hbg hne).not_lt hviable hsv hts)
  · -- it was deleted by a transaction that began after the creator had ended
    have hdeleter : (history.image version).deleter = some id :=
      hstamp.resolve_left fun hf => heq (some.inj (hf.symm.trans hcreator))
    obtain ⟨hb, hkeeps⟩ := hordered creator id hcreator hdeleter (Ne.symm heq)
    obtain ⟨ts', hts', -⟩ := before_iff.mp hb
    have hearlier := lt_of_before hproper hb hts' hts
    by_cases hme : creator = me
    · subst hme
      rw [he] at hts'
      cases hts'
      exact absurd hlt hearlier.not_gt
    · exact absurd (hearlier.trans hlt)
        ((hout creator hbg hme).not_lt hviable (hkeeps survivors hviable hsv) hts')

section
variable (h : history.Explains me beginTs vs) (he : history.endOf me = some endTs)
include h he

theorem versionConflicts_ensures (hm : version ∈ vs) (hordered : history.Ordered version) :
    (versionConflicts me beginTs endTs version).Ensures (history.Validating endTs) fun
      | true => True
      | false => history.Passes me beginTs endTs version := by
  have hlive : ∀ {stamp}, version.beginning = some stamp →
      (beginConflicts me endTs version).Ensures (history.Validating endTs) fun
        | true => True
        | false => history.Passes me beginTs endTs version := by
    intro stamp hbegin
    refine beginConflicts_ensures.imp ?_
    rintro (_ | _) hf
    · exact hordered.passes_of_creator hproper he hbegin hf.1 hf.2
    · trivial
  have hdeleted : ∀ {ts}, version.ending = some (.timestamp ts) → ¬ beginTs < ts →
      history.Passes me beginTs endTs version := by
    intro ts hstamp hlt
    obtain ⟨id, -, hender, hts, -⟩ := h.timed hm (.inr hstamp)
    have hdeleter : (history.image version).deleter = some id := by
      simpa [image, hstamp, writer] using hender
    exact hordered.passes_of_deleted hproper hdeleter hts hlt
  unfold versionConflicts
  split
  next ts hbegin hstamp => exact .of_decide (fun _ => trivial) fun hlt => hdeleted hstamp hlt
  next other hbegin hstamp =>
    -- the only stamp is that of the deleter
    have honly : history.Outlasts endTs other → history.Passes me beginTs endTs version := by
      intro hout survivors hviable id hsv hne hcarries ts hts hlt
      obtain rfl : other = id := by
        simpa [image, hbegin, hstamp, writer] using hcarries
      exact absurd hlt (hout.not_lt hviable hsv hts)
    split
    next hme =>
      intro survivors hviable id hsv hne hcarries
      obtain rfl : other = id := by
        simpa [image, hbegin, hstamp, writer] using hcarries
      exact absurd hme hne
    intro answer hconfirms
    rcases answer with _ | ⟨⟩ | otherEndTs | ⟨⟩ | ⟨⟩ | ts
    case none => exact hconfirms.elim
    case some.committed => trivial
    case some.active => exact honly (.inr fun ts hts => (hconfirms ts hts).le)
    case some.preparing =>
      refine .of_decide (fun _ => trivial) fun hlt => honly (.inr fun ts hts => ?_)
      rw [hconfirms] at hts
      exact some.inj hts ▸ not_lt.mp hlt
    all_goals exact honly (.inl hconfirms)
  next hbegin hstamp =>
    intro survivors hviable id hsv hne hcarries
    simp [image, hbegin, hstamp] at hcarries
  next stamp ts hbegin hstamp =>
    exact .of_decide (fun _ => trivial) fun hlt => hdeleted hstamp hlt
  next stamp deleter hbegin hstamp =>
    have hdeleter : (history.image version).deleter = some deleter := by
      simp [image, hstamp, writer]
    split
    next hme =>
      -- what it has deleted was created before it began
      subst hme
      intro survivors hviable id hsv hne hcarries ts hts _
      have hcreator : (history.image version).creator = some id :=
        hcarries.resolve_right fun hf => hne (some.inj (hf.symm.trans hdeleter))
      have hb := (hordered id deleter hcreator hdeleter hne).1
      exact ((h.before_iff hts).mp hb).not_gt
    intro answer hconfirms
    rcases answer with _ | ⟨⟩ | otherEndTs | ⟨⟩ | ⟨⟩ | ts
    case some.committed =>
      exact .of_decide (fun _ => trivial) fun hlt =>
        hordered.passes_of_deleted hproper hdeleter hconfirms.1 hlt
    all_goals exact hlive hbegin
  next hbegin hstamp => exact hlive hbegin

/-- Validation passes only if no chain carries a stamp of a survivor that ended in between. -/
theorem checkVersionConflicts_ensures (hsubset : scanned ⊆ vs)
    (hordered : ∀ version ∈ vs, history.Ordered version) :
    (checkVersionConflicts me beginTs endTs scanned).Ensures (history.Validating endTs) fun
      | true => True
      | false => ∀ version ∈ scanned, history.Passes me beginTs endTs version := by
  induction scanned with
  | nil => exact nofun
  | cons newest older ih =>
    have hm := hsubset (mem_cons_self ..)
    refine (versionConflicts_ensures hproper h he hm (hordered newest hm)).bind
      fun conflict hnewest => ?_
    cases conflict with
    | true => trivial
    | false =>
      refine (ih fun _ hm => hsubset (mem_cons_of_mem _ hm)).imp ?_
      rintro (_ | _) hf
      · exact forall_mem_cons.mpr ⟨hnewest, hf⟩
      · trivial

end

end Validation

end Turso.Mvcc
