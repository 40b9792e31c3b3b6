import Mathlib.Order.Lattice.Nat

/-!
# Snapshots over version chains

A version of a row has a creator and perhaps a deleter.  A transaction regards as done what it did
itself and what the survivors did that ended before it began; it sees the versions whose creator
is done and whose deleter is not.

For a set of survivors that is serial on the row, `Isolated.shows` says which version a surviving
transaction sees: the one that it wrote last, or else the one that the latest survivor before it
wrote.  The other lemmas say that a chain stays traced and isolated when a transaction inserts a
version, deletes a version that it sees, or when the traces of one that does not survive are
removed.
-/

namespace Snapshot

open Function

variable {Tx Row : Type}

/-- When transactions begin, and when they end if they have. -/
structure Timeline (Tx : Type) where
  start : Tx → ℕ
  stop : Tx → Option ℕ

/-- Transactions end after they begin, and no two end together. -/
structure Timeline.Proper (times : Timeline Tx) : Prop where
  start_lt_stop : ∀ {tx ts}, times.stop tx = some ts → times.start tx < ts
  stop_injective : ∀ {tx tx' ts}, times.stop tx = some ts → times.stop tx' = some ts → tx = tx'

/-- `tx` ended before `later` began. -/
def Timeline.Before (times : Timeline Tx) (tx later : Tx) : Prop :=
  ∃ ts, times.stop tx = some ts ∧ ts < times.start later

structure Version (Tx Row : Type) where
  id : ℕ
  creator : Option Tx
  deleter : Option Tx
  row : Row

section Views
variable (times : Timeline Tx) (survivors : Set Tx)

/-- What `tx` regards as done. -/
def InView (tx other : Tx) : Prop :=
  other = tx ∨ other ∈ survivors ∧ times.Before other tx

def Seen (tx : Tx) (version : Version Tx Row) : Prop :=
  (∃ creator, version.creator = some creator ∧ InView times survivors tx creator) ∧
    ∀ deleter, version.deleter = some deleter → ¬ InView times survivors tx deleter

/-- Created by `tx` and not deleted by it. -/
def Live (tx : Tx) (version : Version Tx Row) : Prop :=
  version.creator = some tx ∧ version.deleter ≠ some tx

/-- The versions of a chain that satisfy `p` are one with the given row, or none. -/
def Shows (chain : Set (Version Tx Row)) (p : Version Tx Row → Prop) : Option Row → Prop
  | some row => ∃ version ∈ chain, p version ∧ version.row = row ∧
      ∀ other ∈ chain, p other → other = version
  | none => ∀ version ∈ chain, ¬ p version

variable (writes : Tx → Option (Option Row))

/-- Writers among the survivors come one after the other. -/
def Serial : Prop :=
  ∀ tx later ts ts', tx ∈ survivors → later ∈ survivors → writes tx ≠ none → writes later ≠ none →
    times.stop tx = some ts → times.stop later = some ts' → ts < ts' → times.Before tx later

/-- The last of the surviving writers that ended before `tx` began. -/
structure Latest (tx last : Tx) : Prop where
  survives : last ∈ survivors
  before : times.Before last tx
  wrote : writes last ≠ none
  latest : ∀ other ts ts', other ∈ survivors → times.Before other tx → writes other ≠ none →
    times.stop other = some ts → times.stop last = some ts' → ts ≤ ts'

/-- What `tx` should read: its own last write, or else that of the latest survivor before it. -/
def Expected (tx : Tx) (own : Option (Option Row)) (value : Option Row) : Prop :=
  match own with
  | some written => value = written
  | none =>
    (∃ last, Latest times survivors writes tx last ∧ writes last = some value) ∨
      (∀ other ∈ survivors, times.Before other tx → writes other = none) ∧ value = none

/-- The chain carries the traces of the writers, and versions are deleted after they were
created. -/
structure Traced (chain : Set (Version Tx Row)) : Prop where
  distinct : ∀ {version other}, version ∈ chain → other ∈ chain → version.id = other.id →
    version = other
  stamped : ∀ {version tx}, version ∈ chain →
    version.creator = some tx ∨ version.deleter = some tx → writes tx ≠ none
  ordered : ∀ {version creator deleter}, version ∈ chain → version.creator = some creator →
    version.deleter = some deleter → creator ≠ deleter →
      times.Before creator deleter ∧ (deleter ∈ survivors → creator ∈ survivors)
  present : ∀ {tx}, tx ∈ survivors → writes tx ≠ none →
    ∃ version ∈ chain, version.creator = some tx ∨ version.deleter = some tx

/-- What a surviving writer left: its last write is live, and what it found is deleted. -/
structure Isolated (chain : Set (Version Tx Row)) : Prop where
  own : ∀ {tx value}, tx ∈ survivors → writes tx = some value → Shows chain (Live tx) value
  covered : ∀ {tx version creator}, tx ∈ survivors → writes tx ≠ none → version ∈ chain →
    version.creator = some creator → creator ∈ survivors → times.Before creator tx →
      ∃ deleter, version.deleter = some deleter ∧ InView times survivors tx deleter

end Views

variable {times : Timeline Tx} {survivors : Set Tx} {writes : Tx → Option (Option Row)}
  {chain : Set (Version Tx Row)} {tx other last : Tx}
variable {version : Version Tx Row}

/-! ## Times -/

theorem Timeline.Proper.not_before_self (h : times.Proper) : ¬ times.Before tx tx := by
  rintro ⟨ts, hstop, hlt⟩
  exact lt_asymm hlt (h.start_lt_stop hstop)

theorem Timeline.Proper.before_trans (h : times.Proper) {later : Tx} (ha : times.Before tx other)
    (hb : times.Before other later) : times.Before tx later := by
  obtain ⟨ts, hstop, hlt⟩ := ha
  obtain ⟨ts', hstop', hlt'⟩ := hb
  refine ⟨ts, hstop, ?_⟩
  calc ts < times.start other := hlt
    _ < ts' := h.start_lt_stop hstop'
    _ < times.start later := hlt'

/-- Who has not ended is in nobody else's view. -/
theorem not_inView_of_running (hrunning : times.stop other = none) (hne : other ≠ tx) :
    ¬ InView times survivors tx other := by
  rintro (rfl | ⟨-, ts, hstop, -⟩)
  · exact hne rfl
  · simp [hrunning] at hstop

theorem not_inView_of_dead (htx : tx ∈ survivors) (hdead : other ∉ survivors) :
    ¬ InView times survivors tx other := by
  rintro (rfl | ⟨hsv, -⟩)
  · exact hdead htx
  · exact hdead hsv

/-- If there is a surviving writer before `tx`, there is a last one. -/
theorem exists_latest (hx : other ∈ survivors) (hb : times.Before other tx)
    (hwrote : writes other ≠ none) : ∃ last, Latest times survivors writes tx last := by
  let stops : Set ℕ := {ts | ∃ writer ∈ survivors, times.Before writer tx ∧ writes writer ≠ none ∧
    times.stop writer = some ts}
  obtain ⟨ts, hstop, hlt⟩ := hb
  have hnonempty : stops.Nonempty := ⟨ts, other, hx, ⟨ts, hstop, hlt⟩, hwrote, hstop⟩
  have hbounded : BddAbove stops := by
    refine ⟨times.start tx, ?_⟩
    rintro ts' ⟨writer, -, ⟨ts'', hstop'', hlt''⟩, -, hstop'⟩
    rw [hstop''] at hstop'
    cases hstop'
    exact hlt''.le
  obtain ⟨last, hlast, hb, hwrote, hstop⟩ := Nat.sSup_mem hnonempty hbounded
  refine ⟨last, hlast, hb, hwrote, ?_⟩
  intro writer ts ts' hwriter hb' hwrote' hstop' hstop''
  rw [hstop] at hstop''
  cases hstop''
  exact le_csSup hbounded ⟨writer, hwriter, hb', hwrote', hstop'⟩

/-! ## What a transaction sees -/

variable {value : Option Row} {p : Version Tx Row → Prop}

variable {q : Version Tx Row → Prop}

/-- A map of one chain into another that keeps the rows. -/
theorem Shows.map {chain' : Set (Version Tx Row)} {f : Version Tx Row → Version Tx Row}
    (h : Shows chain p value) (hrow : ∀ version, (f version).row = version.row)
    (hmap : ∀ version ∈ chain, p version → f version ∈ chain' ∧ q (f version))
    (hback : ∀ version' ∈ chain', q version' → ∃ version ∈ chain, f version = version' ∧ p version) :
    Shows chain' q value := by
  cases value with
  | none =>
    intro version' hm' hq
    obtain ⟨version, hm, -, hp⟩ := hback version' hm' hq
    exact h version hm hp
  | some r =>
    obtain ⟨version, hm, hp, hr, hunique⟩ := h
    obtain ⟨hm', hq⟩ := hmap version hm hp
    refine ⟨f version, hm', hq, (hrow version).trans hr, fun other' hother' hq' => ?_⟩
    obtain ⟨other, hother, rfl, hp'⟩ := hback other' hother' hq'
    rw [hunique other hother hp']

theorem Shows.congr (h : Shows chain p value)
    (hiff : ∀ version ∈ chain, p version ↔ q version) : Shows chain q value :=
  h.map (fun _ => rfl) (fun version hm hp => ⟨hm, (hiff version hm).mp hp⟩)
    fun version hm hq => ⟨version, hm, rfl, (hiff version hm).mpr hq⟩

theorem Shows.unique (h : Shows chain p value)
    {version' : Version Tx Row} (hm : version ∈ chain) (hm' : version' ∈ chain) (hp : p version)
    (hp' : p version') : version = version' := by
  cases value with
  | none => exact absurd hp (h version hm)
  | some r =>
    obtain ⟨found, -, -, -, hunique⟩ := h
    rw [hunique version hm hp, hunique version' hm' hp']

/-- A live version is seen by who created it. -/
theorem Traced.seen_of_live (h : Traced times survivors writes chain) (hproper : times.Proper)
    (hm : version ∈ chain) (hlive : Live tx version) : Seen times survivors tx version := by
  refine ⟨⟨tx, hlive.1, .inl rfl⟩, ?_⟩
  rintro deleter hdeleter (rfl | ⟨-, hb⟩)
  · exact hlive.2 hdeleter
  · have hne : tx ≠ deleter := by
      rintro rfl
      exact hlive.2 hdeleter
    exact hproper.not_before_self (hproper.before_trans (h.ordered hm hlive.1 hdeleter hne).1 hb)

section
variable (h : Isolated times survivors writes chain) (htraced : Traced times survivors writes chain)
  (hproper : times.Proper)
include h htraced hproper

theorem Isolated.shows_own (htx : tx ∈ survivors)
    (hwrote : writes tx = some value) :
    Shows chain (Seen times survivors tx) value := by
  refine (h.own htx hwrote).congr fun v hm => ⟨htraced.seen_of_live hproper hm, ?_⟩
  rintro ⟨⟨c, hc, rfl | ⟨hsv, hb⟩⟩, hd⟩
  · exact ⟨hc, fun heq => hd c heq (.inl rfl)⟩
  · obtain ⟨d, heq, hview⟩ := h.covered htx (by simp [hwrote]) hm hc hsv hb
    exact absurd hview (hd d heq)

/-- Who did not write sees what the latest survivor before it wrote. -/
theorem Isolated.shows_latest (hserial : Serial times survivors writes) (hwrote : writes tx = none)
    (hlatest : Latest times survivors writes tx last)
    (hv : writes last = some value) : Shows chain (Seen times survivors tx) value := by
  refine (h.own hlatest.survives hv).congr fun v hm => ⟨fun hlive => ?_, ?_⟩
  · -- a later survivor that deleted it would be the latest one
    refine ⟨⟨last, hlive.1, .inr ⟨hlatest.survives, hlatest.before⟩⟩, ?_⟩
    rintro deleter hdeleter (rfl | ⟨hsv, hb⟩)
    · exact htraced.stamped hm (.inr hdeleter) hwrote
    · have hne : last ≠ deleter := by
        rintro rfl
        exact hlive.2 hdeleter
      obtain ⟨ts, hstop, hlt⟩ := (htraced.ordered hm hlive.1 hdeleter hne).1
      obtain ⟨ts', hstop', hlt'⟩ := hb
      have hle := hlatest.latest deleter ts' ts hsv ⟨ts', hstop', hlt'⟩
        (htraced.stamped hm (.inr hdeleter)) hstop' hstop
      exact absurd (hlt.trans (hproper.start_lt_stop hstop')) (not_lt.mpr hle)
  · rintro ⟨⟨creator, hcreator, rfl | ⟨hsv, hb⟩⟩, hdeleter⟩
    · exact absurd hwrote (htraced.stamped hm (.inl hcreator))
    have hcreated := htraced.stamped hm (.inl hcreator)
    by_cases hlast : creator = last
    · subst hlast
      exact ⟨hcreator, fun heq => hdeleter creator heq (.inr ⟨hsv, hb⟩)⟩
    · -- what an earlier survivor created was deleted by the latest one or before it
      obtain ⟨ts, hstop, hlt⟩ := hb
      obtain ⟨ts', hstop', hlt'⟩ := hlatest.before
      have hle := hlatest.latest creator ts ts' hsv ⟨ts, hstop, hlt⟩ hcreated hstop hstop'
      have hne : ts ≠ ts' := by
        rintro rfl
        exact hlast (hproper.stop_injective hstop hstop')
      have hearlier := hserial creator last ts ts' hsv hlatest.survives hcreated
        hlatest.wrote hstop hstop' (lt_of_le_of_ne hle hne)
      obtain ⟨deleter, heq, hview⟩ :=
        h.covered hlatest.survives hlatest.wrote hm hcreator hsv hearlier
      refine absurd ?_ (hdeleter deleter heq)
      obtain rfl | ⟨hdone, hb'⟩ := hview
      · exact .inr ⟨hlatest.survives, hlatest.before⟩
      · exact .inr ⟨hdone, hproper.before_trans hb' hlatest.before⟩

/-- A survivor sees at most one version of a row, and it is the one that it should read. -/
theorem Isolated.shows (hserial : Serial times survivors writes) (htx : tx ∈ survivors) :
    ∃ value, Expected times survivors writes tx (writes tx) value ∧
      Shows chain (Seen times survivors tx) value := by
  cases hwrote : writes tx with
  | some value =>
    exact ⟨value, rfl, h.shows_own htraced hproper htx hwrote⟩
  | none =>
    by_cases hearlier : ∃ x ∈ survivors, times.Before x tx ∧ writes x ≠ none
    · obtain ⟨x, hx, hb, hx'⟩ := hearlier
      obtain ⟨last, hlatest⟩ := exists_latest hx hb hx'
      obtain ⟨value, hv⟩ := Option.ne_none_iff_exists'.mp hlatest.wrote
      exact ⟨value, .inl ⟨last, hlatest, hv⟩,
        h.shows_latest htraced hproper hserial hwrote hlatest hv⟩
    · have hno : ∀ x ∈ survivors, times.Before x tx → writes x = none := by
        intro x hx hb
        by_contra hx'
        exact hearlier ⟨x, hx, hb, hx'⟩
      refine ⟨none, .inr ⟨hno, rfl⟩, ?_⟩
      rintro v hm ⟨⟨c, hc, rfl | ⟨hsv, hb⟩⟩, -⟩
      · exact htraced.stamped hm (.inl hc) hwrote
      · exact htraced.stamped hm (.inl hc) (hno c hsv hb)

end

/-! ## Inserting a version -/

section Insert
variable {w : Option Row} {new : Version Tx Row}

/-- A running transaction adds a version with its stamp: one that it creates, or a deleted one. -/
structure Adds (times : Timeline Tx) (chain : Set (Version Tx Row)) (tx : Tx)
    (new : Version Tx Row) (value : Option Row) : Prop where
  running : times.stop tx = none
  fresh : ∀ version ∈ chain, version.id ≠ new.id
  stamps : new.creator = some tx ∧ new.deleter = none ∧ value = some new.row ∨
    new.creator = none ∧ new.deleter = some tx ∧ value = none

theorem Adds.stamp (h : Adds times chain tx new w) :
    new.creator = some tx ∨ new.deleter = some tx := by
  obtain ⟨hc, -⟩ | ⟨-, hd, -⟩ := h.stamps
  · exact .inl hc
  · exact .inr hd

theorem Adds.eq_of_stamp (h : Adds times chain tx new w)
    (hstamp : new.creator = some other ∨ new.deleter = some other) : other = tx := by
  obtain ⟨hc, hd, -⟩ | ⟨hc, hd, -⟩ := h.stamps <;>
    simp [hc, hd] at hstamp <;> exact hstamp.symm

section
variable (hadds : Adds times chain tx new w)
include hadds

theorem Adds.not_seen (hx : other ≠ tx) : ¬ Seen times survivors other new := by
  rintro ⟨⟨c, hc, hview⟩, -⟩
  rw [hadds.eq_of_stamp (.inl hc)] at hview
  exact not_inView_of_running hadds.running hx.symm hview

variable [DecidableEq Tx]

theorem Adds.traced (h : Traced times survivors writes chain) :
    Traced times survivors (update writes tx (some w)) (insert new chain) := by
  constructor
  case distinct =>
    rintro v v' (rfl | hmem) (rfl | hmem') heq
    · rfl
    · exact absurd heq.symm (hadds.fresh v' hmem')
    · exact absurd heq (hadds.fresh v hmem)
    · exact h.distinct hmem hmem' heq
  case stamped =>
    rintro v x (rfl | hmem) hstamp
    · rw [hadds.eq_of_stamp hstamp]
      simp
    · by_cases hx : x = tx
      · simp [hx]
      · simpa [hx] using h.stamped hmem hstamp
  case ordered =>
    rintro v c d (rfl | hmem) hc hd hne
    · obtain ⟨-, hno, -⟩ | ⟨hno, -⟩ := hadds.stamps
      · simp [hno] at hd
      · simp [hno] at hc
    · exact h.ordered hmem hc hd hne
  case present =>
    intro x hsv hwrote
    by_cases hx : x = tx
    · subst hx
      exact ⟨new, Set.mem_insert .., hadds.stamp⟩
    · obtain ⟨v, hmem, hstamp⟩ := h.present hsv (by simpa [hx] using hwrote)
      exact ⟨v, Set.mem_insert_of_mem _ hmem, hstamp⟩

/-- A transaction that sees no version of the row writes it. -/
theorem Adds.isolated (htraced : Traced times survivors writes chain) (hproper : times.Proper)
    (h : Isolated times survivors writes chain)
    (hvacant : tx ∈ survivors → ∀ version ∈ chain, ¬ Seen times survivors tx version) :
    Isolated times survivors (update writes tx (some w)) (insert new chain) := by
  constructor
  case own =>
    intro x written hsv hwrote
    by_cases hx : x = tx
    · subst hx
      obtain rfl : w = written := by simpa using hwrote
      have hno : ∀ version ∈ chain, ¬ Live x version := fun version hmem hlive =>
        hvacant hsv version hmem (htraced.seen_of_live hproper hmem hlive)
      obtain ⟨hc, hd, rfl⟩ | ⟨hc, hd, rfl⟩ := hadds.stamps
      · refine ⟨new, Set.mem_insert .., ⟨hc, by simp [hd]⟩, rfl, ?_⟩
        rintro version (rfl | hmem) hlive
        · rfl
        · exact absurd hlive (hno version hmem)
      · rintro version (rfl | hmem) hlive
        · simp [Live, hc] at hlive
        · exact hno version hmem hlive
    · refine (h.own hsv (by simpa [hx] using hwrote)).map (fun _ => rfl)
        (fun version hmem hlive => ⟨Set.mem_insert_of_mem _ hmem, hlive⟩) ?_
      rintro version (rfl | hmem) hlive
      · exact absurd (hadds.eq_of_stamp (.inl hlive.1)) hx
      · exact ⟨version, hmem, rfl, hlive⟩
  case covered =>
    rintro x version c hsv hwrote (rfl | hmem) hc hcreated hb
    · -- the new version is created by a running transaction
      obtain rfl := hadds.eq_of_stamp (.inl hc)
      obtain ⟨ts, hstop, -⟩ := hb
      simp [hadds.running] at hstop
    by_cases hx : x = tx
    · subst hx
      by_contra hno
      refine hvacant hsv version hmem ⟨⟨c, hc, .inr ⟨hcreated, hb⟩⟩, ?_⟩
      exact fun d hd hview => hno ⟨d, hd, hview⟩
    · exact h.covered hsv (by simpa [hx] using hwrote) hmem hc hcreated hb

end

end Insert

/-! ## Deleting a version -/

section Delete

/-- The version with the id `target` gets a deleter. -/
def mark (tx : Tx) (target : ℕ) (version : Version Tx Row) : Version Tx Row :=
  if version.id = target then { version with deleter := some tx } else version

/-- A transaction deletes a version that it sees.  A deleter that the version had does not
survive. -/
structure Deletes (times : Timeline Tx) (survivors : Set Tx) (tx : Tx)
    (version : Version Tx Row) : Prop where
  created : ∀ {creator}, version.creator = some creator → creator ≠ tx →
    times.Before creator tx ∧ (tx ∈ survivors → creator ∈ survivors)
  free : ∀ {deleter}, version.deleter = some deleter → deleter ∉ survivors
  seen : tx ∈ survivors → Seen times survivors tx version

variable {found : Version Tx Row} {target : ℕ} (v : Version Tx Row)

@[simp]
theorem mark_creator : (mark tx target v).creator = v.creator := by
  unfold mark
  split <;> rfl

@[simp]
theorem mark_row : (mark tx target v).row = v.row := by
  unfold mark
  split <;> rfl

@[simp]
theorem mark_id : (mark tx target v).id = v.id := by
  unfold mark
  split <;> rfl

/-- The deleter of a version after the deletion: the deleting transaction for the one that was
found, and what it was for the others. -/
theorem Traced.mark_cases (h : Traced times survivors writes chain) (tx : Tx)
    (hf : found ∈ chain) (hm : version ∈ chain) :
    version = found ∧ (mark tx found.id version).deleter = some tx ∨
      version ≠ found ∧ mark tx found.id version = version := by
  unfold mark
  by_cases hid : version.id = found.id
  · exact .inl ⟨h.distinct hm hf hid, by simp [hid]⟩
  · refine .inr ⟨?_, by simp [hid]⟩
    rintro rfl
    exact hid rfl

section
variable (hdeletes : Deletes times survivors tx found) (h : Traced times survivors writes chain)
  (hf : found ∈ chain)
include hdeletes h hf

/-- Who sees a version after it was deleted by another one saw it before. -/
theorem Deletes.seen_of_mark (hx : other ∈ survivors) (hm : version ∈ chain)
    (hseen : Seen times survivors other (mark tx found.id version)) :
    Seen times survivors other version := by
  obtain ⟨rfl, -⟩ | ⟨-, heq⟩ := h.mark_cases tx hf hm
  · refine ⟨by simpa using hseen.1, fun d hd => ?_⟩
    exact not_inView_of_dead hx (hdeletes.free hd)
  · rwa [heq] at hseen

/-- Once the version that it sees is deleted, a transaction sees none. -/
theorem Deletes.vacant {v : Option Row} (hshows : Shows chain (Seen times survivors tx) v)
    (htx : tx ∈ survivors) :
    ∀ version ∈ mark tx found.id '' chain, ¬ Seen times survivors tx version := by
  rintro _ ⟨version, hm, rfl⟩ hseen
  obtain ⟨rfl, hd⟩ | ⟨hne, heq⟩ := h.mark_cases tx hf hm
  · exact hseen.2 tx hd (.inl rfl)
  · rw [heq] at hseen
    exact hne (hshows.unique hm hf hseen (hdeletes.seen htx))

variable [DecidableEq Tx]

theorem Deletes.traced :
    Traced times survivors (update writes tx (some none)) (mark tx found.id '' chain) := by
  have hwrites : ∀ {x}, writes x ≠ none → update writes tx (some none) x ≠ none := by
    intro x hwrote
    by_cases hx : x = tx <;> simp [hx, hwrote]
  constructor
  case distinct =>
    rintro _ _ ⟨v, hm, rfl⟩ ⟨v', hm', rfl⟩ heq
    rw [h.distinct hm hm' (by simpa using heq)]
  case stamped =>
    rintro _ x ⟨v, hm, rfl⟩ hstamp
    obtain ⟨rfl, hdeleter⟩ | ⟨-, heq⟩ := h.mark_cases tx hf hm
    · rw [mark_creator, hdeleter] at hstamp
      obtain hc | hdeleter := hstamp
      · exact hwrites (h.stamped hm (.inl hc))
      · cases hdeleter
        simp
    · exact hwrites (h.stamped hm (heq ▸ hstamp))
  case ordered =>
    rintro _ c d ⟨v, hm, rfl⟩ hc hdeleter hne
    rw [mark_creator] at hc
    obtain ⟨rfl, hmarked⟩ | ⟨-, heq⟩ := h.mark_cases tx hf hm
    · rw [hmarked] at hdeleter
      cases hdeleter
      exact hdeletes.created hc hne
    · exact h.ordered hm hc (heq ▸ hdeleter) hne
  case present =>
    intro x hsv hwrote
    by_cases hx : x = tx
    · subst hx
      exact ⟨_, ⟨found, hf, rfl⟩, .inr (by simp [mark])⟩
    · obtain ⟨v, hm, hstamp⟩ := h.present hsv (by simpa [hx] using hwrote)
      refine ⟨_, ⟨v, hm, rfl⟩, ?_⟩
      rw [mark_creator]
      obtain ⟨rfl, -⟩ | ⟨-, heq⟩ := h.mark_cases tx hf hm
      · exact .inl (hstamp.resolve_right fun hdeleter => hdeletes.free hdeleter hsv)
      · rwa [heq]

theorem Deletes.isolated (hproper : times.Proper) (hisolated : Isolated times survivors writes chain)
    (hshows : tx ∈ survivors → ∃ value, Shows chain (Seen times survivors tx) value) :
    Isolated times survivors (update writes tx (some none)) (mark tx found.id '' chain) := by
  have htraced' := hdeletes.traced h hf
  constructor
  case own =>
    intro other written hsv hwrote
    by_cases hother : other = tx
    · subst hother
      obtain rfl : none = written := by simpa using hwrote
      obtain ⟨value, hshows⟩ := hshows hsv
      exact fun version hm hlive => hdeletes.vacant h hf hshows hsv version hm
        (htraced'.seen_of_live hproper hm hlive)
    · have ho := hisolated.own hsv (by simpa [hother] using hwrote)
      -- the mark does not change what is live for another survivor
      have hlive : ∀ version ∈ chain, Live other (mark tx found.id version) ↔ Live other version := by
        intro version hm
        unfold Live
        rw [mark_creator]
        obtain ⟨rfl, hd⟩ | ⟨-, heq⟩ := h.mark_cases tx hf hm
        · simp only [hd, ne_eq, Option.some.injEq, Ne.symm hother, not_false_eq_true, and_true,
            iff_self_and]
          exact fun _ heq => hdeletes.free heq hsv
        · rw [heq]
      refine ho.map mark_row (fun v hm h => ⟨⟨v, hm, rfl⟩, (hlive v hm).mpr h⟩) ?_
      rintro _ ⟨version, hm, rfl⟩ hlive'
      exact ⟨version, hm, rfl, (hlive version hm).mp hlive'⟩
  case covered =>
    rintro other _ c hsv hwrote ⟨version, hm, rfl⟩ hc hcreated hb
    rw [mark_creator] at hc
    by_cases hother : other = tx
    · subst hother
      by_contra hno
      obtain ⟨value, hshows⟩ := hshows hsv
      refine hdeletes.vacant h hf hshows hsv _ ⟨version, hm, rfl⟩
        ⟨⟨c, by simpa, .inr ⟨hcreated, hb⟩⟩, ?_⟩
      exact fun d hd hview => hno ⟨d, hd, hview⟩
    · obtain ⟨d, hd, hview⟩ :=
        hisolated.covered hsv (by simpa [hother] using hwrote) hm hc hcreated hb
      obtain ⟨rfl, -⟩ | ⟨-, heq⟩ := h.mark_cases tx hf hm
      · exact absurd hview (not_inView_of_dead hsv (hdeletes.free hd))
      · exact ⟨d, by rwa [heq], hview⟩

end

end Delete

/-! ## Undoing what a transaction did -/

section Undo
variable [DecidableEq Tx]

def unmark (tx : Tx) (version : Version Tx Row) : Version Tx Row :=
  if version.deleter = some tx then { version with deleter := none } else version

/-- The chain without the traces of `tx`. -/
def undo (tx : Tx) (chain : Set (Version Tx Row)) : Set (Version Tx Row) :=
  unmark tx '' {version ∈ chain | version.creator ≠ some tx}

variable (v : Version Tx Row)

@[simp]
theorem unmark_creator : (unmark tx v).creator = v.creator := by
  unfold unmark
  split <;> rfl

@[simp]
theorem unmark_row : (unmark tx v).row = v.row := by
  unfold unmark
  split <;> rfl

@[simp]
theorem unmark_id : (unmark tx v).id = v.id := by
  unfold unmark
  split <;> rfl

theorem unmark_deleter :
    (unmark tx version).deleter = some other ↔ other ≠ tx ∧ version.deleter = some other := by
  unfold unmark
  by_cases hd : version.deleter = some tx
  · simp [hd, eq_comm]
  · simp only [hd, if_false, iff_and_self]
    rintro heq rfl
    exact hd heq

theorem Traced.undo (h : Traced times survivors writes chain) (hdead : tx ∉ survivors) :
    Traced times survivors writes (undo tx chain) := by
  constructor
  case distinct =>
    rintro _ _ ⟨v, ⟨hm, -⟩, rfl⟩ ⟨v', ⟨hm', -⟩, rfl⟩ heq
    rw [h.distinct hm hm' (by simpa using heq)]
  case stamped =>
    rintro _ x ⟨v, ⟨hm, -⟩, rfl⟩ hstamp
    rw [unmark_creator, unmark_deleter] at hstamp
    exact h.stamped hm (hstamp.imp_right (·.2))
  case ordered =>
    rintro _ c d ⟨v, ⟨hm, -⟩, rfl⟩ hc hdeleter hne
    rw [unmark_creator] at hc
    exact h.ordered hm hc (unmark_deleter.mp hdeleter).2 hne
  case present =>
    intro x hsv hwrote
    have hx : x ≠ tx := ne_of_mem_of_not_mem hsv hdead
    obtain ⟨v, hm, hstamp⟩ := h.present hsv hwrote
    refine ⟨unmark tx v, ⟨v, ⟨hm, fun hc => ?_⟩, rfl⟩, ?_⟩
    · -- what it created and a survivor deleted would make it a survivor
      obtain heq | hdeleter := hstamp
      · exact hx (Option.some.inj (heq.symm.trans hc))
      · exact hdead ((h.ordered hm hc hdeleter hx.symm).2 hsv)
    · rw [unmark_creator, unmark_deleter]
      exact hstamp.imp_right fun hdeleter => ⟨hx, hdeleter⟩

theorem seen_of_unmark (hdead : tx ∉ survivors) (hx : other ∈ survivors)
    (hseen : Seen times survivors other (unmark tx version)) :
    Seen times survivors other version := by
  refine ⟨by simpa using hseen.1, fun d hd => ?_⟩
  by_cases heq : d = tx
  · exact heq ▸ not_inView_of_dead hx hdead
  · exact hseen.2 d (unmark_deleter.mpr ⟨heq, hd⟩)

theorem Isolated.undo (h : Isolated times survivors writes chain) (hdead : tx ∉ survivors) :
    Isolated times survivors writes (undo tx chain) := by
  constructor
  case own =>
    intro other w hsv hwrote
    have hother : other ≠ tx := ne_of_mem_of_not_mem hsv hdead
    have hlive : ∀ version : Version Tx Row,
        Live other (unmark tx version) ↔ Live other version := by
      intro version
      unfold Live
      rw [unmark_creator, ne_eq, unmark_deleter]
      simp [hother]
    refine (h.own hsv hwrote).map unmark_row
      (fun v hm h => ⟨⟨v, ⟨hm, ?_⟩, rfl⟩, (hlive v).mpr h⟩) ?_
    · rw [h.1]
      simpa using hother
    · rintro _ ⟨version, ⟨hm, -⟩, rfl⟩ hlive'
      exact ⟨version, hm, rfl, (hlive version).mp hlive'⟩
  case covered =>
    rintro other _ c hsv hwrote ⟨version, ⟨hm, -⟩, rfl⟩ hc hcreated hb
    rw [unmark_creator] at hc
    obtain ⟨d, hd, hview⟩ := h.covered hsv hwrote hm hc hcreated hb
    refine ⟨d, unmark_deleter.mpr ⟨?_, hd⟩, hview⟩
    rintro rfl
    exact not_inView_of_dead hsv hdead hview

end Undo

/-! ## Time goes on -/

section Later
variable {times' : Timeline Tx}

section
variable (hb : ∀ earlier, times'.Before earlier tx ↔ times.Before earlier tx)
include hb

theorem inView_congr : InView times' survivors tx other ↔ InView times survivors tx other := by
  simp only [InView, hb]

theorem seen_congr : Seen times' survivors tx version ↔ Seen times survivors tx version := by
  simp only [Seen, inView_congr hb]

end

section
variable
  (hb : ∀ tx, writes tx ≠ none → ∀ earlier, times'.Before earlier tx ↔ times.Before earlier tx)
include hb

theorem Traced.retime (h : Traced times survivors writes chain) :
    Traced times' survivors writes chain where
  distinct := h.distinct
  stamped := h.stamped
  ordered := by
    intro v c d hm hc hd hne
    rw [hb d (h.stamped hm (.inr hd))]
    exact h.ordered hm hc hd hne
  present := h.present

theorem Isolated.retime (h : Isolated times survivors writes chain) :
    Isolated times' survivors writes chain where
  own := h.own
  covered := by
    intro tx version c hsv hwrote hm hc hcreated hearlier
    simp only [inView_congr (hb tx hwrote)]
    exact h.covered hsv hwrote hm hc hcreated ((hb tx hwrote c).mp hearlier)

end

/-- What a transaction should read depends on the past only. -/
theorem Expected.congr {writes' : Tx → Option (Option Row)} {own : Option (Option Row)}
    (h : Expected times survivors writes tx own value)
    (hb : ∀ earlier, times'.Before earlier tx ↔ times.Before earlier tx)
    (hstop : ∀ earlier, times.Before earlier tx → times'.stop earlier = times.stop earlier)
    (hwrites : ∀ earlier, times.Before earlier tx → writes' earlier = writes earlier) :
    Expected times' survivors writes' tx own value := by
  cases own with
  | some w => exact h
  | none =>
    obtain ⟨last, hlatest, hw⟩ | ⟨hno, hw⟩ := h
    · refine .inl ⟨last, ⟨hlatest.survives, (hb last).mpr hlatest.before, ?_, ?_⟩, ?_⟩
      · rw [hwrites last hlatest.before]
        exact hlatest.wrote
      · intro y ts ts' hy hearlier hwrote hts hts'
        rw [hb] at hearlier
        rw [hstop y hearlier] at hts
        rw [hstop last hlatest.before] at hts'
        rw [hwrites y hearlier] at hwrote
        exact hlatest.latest y ts ts' hy hearlier hwrote hts hts'
      · rw [hwrites last hlatest.before, hw]
    · refine .inr ⟨fun y hy hearlier => ?_, hw⟩
      rw [hb] at hearlier
      rw [hwrites y hearlier]
      exact hno y hy hearlier

end Later

end Snapshot
