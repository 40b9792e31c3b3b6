import Turso.Mvcc.Version
import Mathlib.Data.List.Induction
import Mathlib.Order.Basic
import Mathlib.Data.Nat.Basic

/-!
# What a checkpoint writes of a row

A checkpoint looks at the version chain of a row and decides what to write to the B-tree
(`core/mvcc/database/checkpoint_state_machine.rs`).  It goes over the versions from the oldest on,
keeps track of whether the row is in the database file, and collects the newest version that is not
there yet, as an insert or as a delete.

`rowAt` says what the row is at a time: the commits up to then, one after the other, over what the
B-tree held before the chain.  A chain is well-formed if its committed versions follow each other in
time and a row that was in the B-tree before is marked so.
-/

namespace Turso.Mvcc

open Option List

/-- What the collection reads of the checkpoint, the table and the transactions.  `identity` is
`sqlite_schema_btree_identity`. -/
structure Checkpoint (Row Identity : Type) where
  lookupTxState : TxId → Option TransactionState
  durableTxidMaxOld : Option Timestamp
  snapshotTs : Timestamp
  isSchemaTable : Bool
  identity : Row → Option Identity

/-- The boundary has come to the timestamp, if there are both. -/
def reached (boundary ts : Option Timestamp) : Bool :=
  boundary.any fun bound => ts.any (· ≤ bound)

/-- `exists_in_db_file` and `versions_to_checkpoint`. -/
structure Collected (Row : Type) where
  existsInDbFile : Bool := false
  versions : List (RowVersion Row) := []

namespace Checkpoint

variable {Row Identity : Type} [DecidableEq Identity] (checkpoint : Checkpoint Row Identity)

/-- `committed_ts`. -/
def committedTs : Option TxTimestampOrId → Option Timestamp
  | some (.timestamp ts) => some ts
  | some (.txId id) =>
    match checkpoint.lookupTxState id with
    | some (.committed ts) => some ts
    | _ => none
  | none => none

def beginTs (version : RowVersion Row) : Option Timestamp :=
  checkpoint.committedTs version.beginning

/-- `end_ts`, after a tombstone that is committed later than the snapshot was clamped. -/
def endTs (version : RowVersion Row) : Option Timestamp :=
  (checkpoint.committedTs version.ending).filter (· ≤ checkpoint.snapshotTs)

/-- `is_schema_metadata_only_rewrite`, for a version with a next one. -/
def isSchemaMetadataOnlyRewrite (current next : RowVersion Row) : Bool :=
  current.ending.isSome && (checkpoint.identity current.row).isSome &&
    checkpoint.identity current.row != checkpoint.identity next.row

variable (versions : List (RowVersion Row))

/-- A version is pushed, in place of the one that it supersedes. -/
def push (version checkpointVersion : RowVersion Row) : List (RowVersion Row) :=
  if !checkpoint.isSchemaTable then
    match versions with
    | [] => [checkpointVersion]
    | _ :: rest => checkpointVersion :: rest
  else
    match versions.getLast? with
    | some previous =>
      if previous.ending.isSome && !checkpoint.isSchemaMetadataOnlyRewrite previous version then
        versions.dropLast ++ [checkpointVersion]
      else versions ++ [checkpointVersion]
    | none => versions ++ [checkpointVersion]

/-- `exists_in_db_file` after the version. -/
def inDbFile (existsInDbFile : Bool) (version : RowVersion Row) : Bool :=
  let inDbFile := if version.btreeResident then true else existsInDbFile
  let inDbFile :=
    if reached checkpoint.durableTxidMaxOld (checkpoint.beginTs version) then true else inDbFile
  if reached checkpoint.durableTxidMaxOld (checkpoint.endTs version) then false else inDbFile

/-- `should_checkpoint`. -/
def shouldCheckpoint (inDbFile : Bool) (version : RowVersion Row) : Bool :=
  let beginTs := checkpoint.beginTs version
  let endTs := checkpoint.endTs version
  let isUncheckpointedInsert :=
    endTs.isNone && checkpoint.durableTxidMaxOld.all fun old => beginTs.any (old < ·)
  let isDeleteAndExistsInDbFile := endTs.isSome && inDbFile
  let isSchemaDelete := checkpoint.isSchemaTable && !inDbFile &&
    (checkpoint.identity version.row).isSome &&
      checkpoint.durableTxidMaxOld.all fun old => endTs.any (old < ·)
  isUncheckpointedInsert || isDeleteAndExistsInDbFile || isSchemaDelete

/-- One round of the loop of `maybe_get_checkpointable_versions`. -/
def collectVersion (state : Collected Row) (version : RowVersion Row) : Collected Row :=
  let beginTs := checkpoint.beginTs version
  let endTs := checkpoint.endTs version
  if beginTs.any (checkpoint.snapshotTs < ·) then state
  else if beginTs.isNone && endTs.isNone then state
  else
    let inDbFile := checkpoint.inDbFile state.existsInDbFile version
    if checkpoint.shouldCheckpoint inDbFile version then
      ⟨inDbFile, checkpoint.push state.versions version
        { version with ending := endTs.map .timestamp }⟩
    else ⟨inDbFile, state.versions⟩

/-- `maybe_get_checkpointable_versions`. -/
def maybeGetCheckpointableVersions : List (RowVersion Row) :=
  (versions.foldl checkpoint.collectVersion {}).versions

end Checkpoint

/-- The row in the B-tree after a version is written to it. -/
def writeToBtree {Row : Type} (_held : Option Row) (version : RowVersion Row) : Option Row :=
  if version.ending.isSome then none else some version.row

/-! ## What the row is -/

namespace Checkpoint

variable {Row Identity : Type} {checkpoint : Checkpoint Row Identity} {base : Option Row}
  {versions : List (RowVersion Row)} {version : RowVersion Row}

section
variable (checkpoint : Checkpoint Row Identity)

/-- The row after the commits of the version that the boundary has come to. -/
def replay (boundary : Option Timestamp) (held : Option Row) (version : RowVersion Row) :
    Option Row :=
  if reached boundary (checkpoint.committedTs version.ending) then none
  else if reached boundary (checkpoint.beginTs version) then some version.row
  else held

/-- What the row is at the boundary, if the B-tree held `base` before the chain. -/
def rowAt (boundary : Option Timestamp) (base : Option Row) (versions : List (RowVersion Row)) :
    Option Row :=
  versions.foldl (checkpoint.replay boundary) base

/-- The first commit that the version takes part in. -/
def firstTs (version : RowVersion Row) : Option Timestamp :=
  (checkpoint.beginTs version).or (checkpoint.committedTs version.ending)

/-- The versions that are committed follow each other in time, among others that are not.  If the
row was in the B-tree before, the first of them says so: a version that is made over a row of the
B-tree is marked, and so is the tombstone of a recovered delete. -/
structure WellFormed (base : Option Row) (versions : List (RowVersion Row)) : Prop where
  begin_le_end : ∀ version ∈ versions, ∀ beginTs ∈ checkpoint.beginTs version,
    ∀ endTs ∈ checkpoint.committedTs version.ending, beginTs ≤ endTs
  ordered : versions.Pairwise fun earlier later => checkpoint.firstTs earlier ≠ none →
    ∀ ts ∈ checkpoint.firstTs later, ∃ endTs ∈ checkpoint.committedTs earlier.ending, endTs ≤ ts
  resident : base ≠ none → ∀ before version after, versions = before ++ version :: after →
    (∀ earlier ∈ before, checkpoint.firstTs earlier = none) → checkpoint.firstTs version ≠ none →
      version.btreeResident

end

theorem WellFormed.of_append {after : List (RowVersion Row)}
    (h : checkpoint.WellFormed base (versions ++ after)) : checkpoint.WellFormed base versions where
  begin_le_end := fun version hm => h.begin_le_end version (mem_append_left _ hm)
  ordered := (pairwise_append.mp h.ordered).1
  resident := by
    rintro hbase before version rest rfl
    exact h.resident hbase before version (rest ++ after) (by simp)

/-! ## The loop -/

/-- The version takes part in a commit that the snapshot has come to. -/
def Visible (checkpoint : Checkpoint Row Identity) (version : RowVersion Row) : Prop :=
  ∃ ts ∈ checkpoint.firstTs version, ts ≤ checkpoint.snapshotTs

variable {boundary : Option Timestamp}

theorem reached_eq_true {ts : Option Timestamp} :
    reached boundary ts = true ↔ ∃ bound ∈ boundary, ∃ time ∈ ts, time ≤ bound := by
  cases boundary <;> cases ts <;> simp [reached]

theorem endTs_eq_some {ts : Timestamp} : checkpoint.endTs version = some ts ↔
    checkpoint.committedTs version.ending = some ts ∧ ts ≤ checkpoint.snapshotTs := by
  simp [endTs, filter_eq_some_iff]

theorem reached_endTs
    (hle : ∀ bound ∈ boundary, bound ≤ checkpoint.snapshotTs) :
    reached boundary (checkpoint.committedTs version.ending) =
      reached boundary (checkpoint.endTs version) := by
  rw [Bool.eq_iff_iff, reached_eq_true, reached_eq_true]
  constructor
  · rintro ⟨bound, hbound, time, htime, hreached⟩
    exact ⟨bound, hbound, time, endTs_eq_some.mpr ⟨htime, hreached.trans (hle bound hbound)⟩, hreached⟩
  · rintro ⟨bound, hbound, time, htime, hreached⟩
    exact ⟨bound, hbound, time, (endTs_eq_some.mp htime).1, hreached⟩

theorem visible_iff : checkpoint.Visible version ↔
    (checkpoint.beginTs version).any (checkpoint.snapshotTs < ·) = false ∧
      (checkpoint.beginTs version ≠ none ∨ checkpoint.endTs version ≠ none) := by
  cases hbegin : checkpoint.beginTs version with
  | none => simp [Visible, firstTs, hbegin, ne_none_iff_exists', endTs_eq_some]
  | some ts => simp [Visible, firstTs, hbegin]

section Push
variable [DecidableEq Identity] {new : RowVersion Row}

theorem mem_push {w : RowVersion Row} (h : w ∈ checkpoint.push versions version new) :
    w = new ∨ w ∈ versions := by
  unfold push at h
  split_ifs at h
  · cases versions <;> simp_all
    tauto
  · split at h
    next =>
      split_ifs at h
      · obtain hmem | hmem := mem_append.mp h
        · exact .inr (dropLast_subset _ hmem)
        · exact .inl (mem_singleton.mp hmem)
      · exact (mem_append.mp h).symm.imp_left mem_singleton.mp
    next => exact (mem_append.mp h).symm.imp_left mem_singleton.mp

/-- What is pushed is written last. -/
theorem foldl_push (hsingle : checkpoint.isSchemaTable = false → versions.length ≤ 1)
    (held : Option Row) : (checkpoint.push versions version new).foldl writeToBtree held =
      if new.ending.isSome then none else some new.row := by
  have hlast : ∃ before, checkpoint.push versions version new = before ++ [new] := by
    unfold push
    split_ifs
    · match versions, hsingle (by simp_all) with
      | [], _ | [_], _ => exact ⟨[], rfl⟩
    · split
      · split_ifs <;> exact ⟨_, rfl⟩
      · exact ⟨_, rfl⟩
  obtain ⟨before, hpush⟩ := hlast
  simp [hpush, writeToBtree]

end Push

theorem foldl_deletes (h : ∀ w ∈ versions, w.ending.isSome) :
    versions.foldl writeToBtree none = none := by
  induction versions with
  | nil => rfl
  | cons w rest ih => simp_all [writeToBtree]

theorem rowAt_append (boundary : Option Timestamp) : checkpoint.rowAt boundary base
    (versions ++ [version]) =
      checkpoint.replay boundary (checkpoint.rowAt boundary base versions) version := by
  simp [rowAt]

theorem replay_snapshotTs (hvisible : checkpoint.Visible version) (held : Option Row) :
    checkpoint.replay (some checkpoint.snapshotTs) held version =
      if (checkpoint.endTs version).isSome then none else some version.row := by
  obtain ⟨hbg, hbegin_or⟩ := visible_iff.mp hvisible
  rw [replay, reached_endTs (by simp)]
  cases he : checkpoint.endTs version with
  | none =>
    obtain ⟨ts, hts⟩ := ne_none_iff_exists'.mp (hbegin_or.resolve_right (by simp [he]))
    simp_all [reached]
  | some ts => simp [reached, (endTs_eq_some.mp he).2]

section
variable (h : checkpoint.WellFormed base versions) (hm : version ∈ versions)
include h hm

theorem WellFormed.exists_firstTs {ts : Timestamp}
    (hts : ts ∈ checkpoint.beginTs version ∨ ts ∈ checkpoint.committedTs version.ending) :
    ∃ a ∈ checkpoint.firstTs version, a ≤ ts := by
  cases hbg : checkpoint.beginTs version with
  | none =>
    exact ⟨ts, by simpa [firstTs, hbg] using hts, le_rfl⟩
  | some a =>
    refine ⟨a, by simp [firstTs, hbg], ?_⟩
    obtain hts | hts := hts
    · exact (mem_unique hbg hts).le
    · exact h.begin_le_end version hm a hbg ts hts

/-- A version that is not visible changes nothing before the snapshot. -/
theorem WellFormed.replay_eq (hnot : ¬ checkpoint.Visible version)
    (hle : ∀ bound ∈ boundary, bound ≤ checkpoint.snapshotTs) (held : Option Row) :
    checkpoint.replay boundary held version = held := by
  have hreached : ∀ {times}, (∀ ts ∈ times, ts ∈ checkpoint.beginTs version ∨
      ts ∈ checkpoint.committedTs version.ending) → reached boundary times = false := by
    intro times htimes
    rw [Bool.eq_false_iff, Ne, reached_eq_true]
    rintro ⟨bound, hbound, ts, hts, hreached⟩
    obtain ⟨a, ha, hfirst_le⟩ := h.exists_firstTs hm (htimes ts hts)
    exact hnot ⟨a, ha, (hfirst_le.trans hreached).trans (hle bound hbound)⟩
  rw [replay, hreached fun ts => .inr, hreached fun ts => .inl]
  rfl

end

/-- The loop has gone over the versions. -/
structure Collects (checkpoint : Checkpoint Row Identity) (base : Option Row)
    (versions : List (RowVersion Row)) (state : Collected Row) : Prop where
  exact : state.versions.foldl writeToBtree
      (checkpoint.rowAt checkpoint.durableTxidMaxOld base versions) =
    checkpoint.rowAt (some checkpoint.snapshotTs) base versions
  held : checkpoint.rowAt checkpoint.durableTxidMaxOld base versions ≠ none →
    state.existsInDbFile = true ∨
      base ≠ none ∧ ∀ version ∈ versions, ¬ checkpoint.Visible version
  pushed : ∀ written ∈ state.versions, ∃ version ∈ versions, checkpoint.Visible version ∧
    written.ending = (checkpoint.endTs version).map .timestamp ∧
      reached checkpoint.durableTxidMaxOld (checkpoint.endTs version) = false
  single : checkpoint.isSchemaTable = false → state.versions.length ≤ 1

/-- Before a version that is visible, all that are visible have ended. -/
theorem WellFormed.ended (hwell : checkpoint.WellFormed base (versions ++ [version]))
    (hvisible : checkpoint.Visible version) {earlier : RowVersion Row}
    (hm : earlier ∈ versions) (ha : checkpoint.firstTs earlier ≠ none) :
    ∃ endTs, checkpoint.endTs earlier = some endTs ∧
      ∀ ts ∈ checkpoint.firstTs version, endTs ≤ ts := by
  obtain ⟨ts, hts, hle⟩ := hvisible
  obtain ⟨endTs, he, hb⟩ := (pairwise_append.mp hwell.ordered).2.2 earlier hm version
    (mem_singleton_self _) ha ts hts
  refine ⟨endTs, endTs_eq_some.mpr ⟨he, hb.trans hle⟩, fun ts' hts' => ?_⟩
  cases hts.symm.trans hts'
  exact hb

section Step
variable {state : Collected Row} (h : checkpoint.Collects base versions state)
  (hwell : checkpoint.WellFormed base (versions ++ [version]))
  (hvisible : checkpoint.Visible version)
include h hwell hvisible

/-- What is pushed before a version that is visible are deletes. -/
theorem Collects.ending_isSome {w : RowVersion Row} (hm : w ∈ state.versions) :
    w.ending.isSome := by
  obtain ⟨earlier, hearlier, ⟨ts, hts, -⟩, hending, -⟩ := h.pushed w hm
  obtain ⟨endTs, he, -⟩ := hwell.ended hvisible hearlier (by simp [mem_def.mp hts])
  simp [hending, he]

/-- Nothing is pushed before a version that was checkpointed. -/
theorem Collects.versions_eq_nil
    (hbg : reached checkpoint.durableTxidMaxOld (checkpoint.beginTs version) = true) :
    state.versions = [] := by
  refine eq_nil_iff_forall_not_mem.mpr fun w hm => ?_
  obtain ⟨earlier, hearlier, ⟨a, ha, -⟩, -, hnot⟩ := h.pushed w hm
  obtain ⟨endTs, he, hb⟩ := hwell.ended hvisible hearlier (by simp [mem_def.mp ha])
  obtain ⟨old, ho, ts, hts, hreached⟩ := reached_eq_true.mp hbg
  have hle := hb ts (by simp [firstTs, mem_def.mp hts])
  rw [reached_eq_true.mpr ⟨old, ho, endTs, he, hle.trans hreached⟩] at hnot
  cases hnot

variable (hle : ∀ old ∈ checkpoint.durableTxidMaxOld, old ≤ checkpoint.snapshotTs)
include hle

/-- A row that is in the B-tree is known to be. -/
theorem Collects.absent (hnot : checkpoint.inDbFile state.existsInDbFile version = false) :
    checkpoint.rowAt checkpoint.durableTxidMaxOld base (versions ++ [version]) = none := by
  rw [rowAt_append, replay, reached_endTs hle]
  simp only [inDbFile] at hnot
  split_ifs at hnot ⊢ with he hbg hresident
  · rfl
  by_contra hheld
  obtain hexists' | ⟨hbase, hno⟩ := h.held hheld
  · simp_all
  -- nothing before the version is committed, so the row was in the B-tree before the chain
  have ha : ∀ earlier ∈ versions, checkpoint.firstTs earlier = none := by
    intro earlier hm
    by_contra ha
    obtain ⟨endTs, he, -⟩ := hwell.ended hvisible hm ha
    obtain ⟨he, hend_le⟩ := endTs_eq_some.mp he
    obtain ⟨a, ha, hle⟩ := hwell.exists_firstTs (mem_append_left _ hm) (.inr he)
    exact hno earlier hm ⟨a, ha, hle.trans hend_le⟩
  obtain ⟨ts, hts, -⟩ := hvisible
  exact hresident (hwell.resident hbase versions version [] rfl ha (by simp [mem_def.mp hts]))

variable [DecidableEq Identity]

theorem Collects.step_visible :
    checkpoint.Collects base (versions ++ [version]) (checkpoint.collectVersion state version) := by
  obtain ⟨hbg, hbegin_or⟩ := visible_iff.mp hvisible
  have hheld : checkpoint.rowAt checkpoint.durableTxidMaxOld base (versions ++ [version]) ≠ none →
      checkpoint.inDbFile state.existsInDbFile version = true := fun hheld => by
    by_contra hnot
    exact hheld (h.absent hwell hvisible hle (by simpa using hnot))
  have hpushed : ∀ w ∈ state.versions, ∃ earlier ∈ versions ++ [version], _ :=
    fun w hmem => (h.pushed w hmem).imp fun _ => .imp_left (mem_append_left _)
  unfold collectVersion
  rw [if_neg (by simp [hbg]), if_neg (by simpa [← imp_iff_not_or] using hbegin_or)]
  dsimp only
  split_ifs with hshould
  · refine ⟨?_, fun held => .inl (hheld held), fun w hmem => ?_, fun hschema => ?_⟩
    · rw [foldl_push h.single, rowAt_append, replay_snapshotTs hvisible]
      simp
    · obtain rfl | hmem := mem_push hmem
      · refine ⟨version, by simp, hvisible, rfl, ?_⟩
        by_contra hreached
        rw [Bool.not_eq_false] at hreached
        obtain ⟨old, ho, ts, hts, he⟩ := reached_eq_true.mp hreached
        simp_all [shouldCheckpoint, inDbFile, Nat.not_lt.mpr he]
      · exact hpushed w hmem
    · have hsingle := h.single hschema
      cases hvs : state.versions <;> simp_all [push]
  · refine ⟨?_, fun held => .inl (hheld held), hpushed, h.single⟩
    rw [rowAt_append (some _), replay_snapshotTs hvisible]
    cases he : checkpoint.endTs version with
    | none =>
      -- an insert that is not pushed is in the B-tree
      obtain ⟨ts, hts⟩ := ne_none_iff_exists'.mp (hbegin_or.resolve_right (by simp [he]))
      have hreached : reached checkpoint.durableTxidMaxOld (checkpoint.beginTs version) = true := by
        cases ho : checkpoint.durableTxidMaxOld <;> simp_all [shouldCheckpoint, reached, not_lt]
      rw [h.versions_eq_nil hwell hvisible hreached, rowAt_append, replay, reached_endTs hle, he]
      rw [if_neg (by simp [reached]), if_pos hreached]
      rfl
    | some ts =>
      -- a delete that is not pushed finds no row
      rw [h.absent hwell hvisible hle (by simp_all [shouldCheckpoint])]
      exact foldl_deletes fun w => h.ending_isSome hwell hvisible

omit hvisible in
theorem Collects.step :
    checkpoint.Collects base (versions ++ [version]) (checkpoint.collectVersion state version) := by
  have hm : version ∈ versions ++ [version] := by simp
  by_cases hvisible : checkpoint.Visible version
  · exact h.step_visible hwell hvisible hle
  · have hskip : checkpoint.collectVersion state version = state := by
      rw [visible_iff] at hvisible
      unfold collectVersion
      grind
    rw [hskip]
    refine ⟨?_, ?_, fun w hw => ?_, h.single⟩
    · rw [rowAt_append, rowAt_append, hwell.replay_eq hm hvisible hle,
        hwell.replay_eq hm hvisible (by simp)]
      exact h.exact
    · rw [rowAt_append, hwell.replay_eq hm hvisible hle]
      refine fun hheld => (h.held hheld).imp_right fun ⟨hbase, hno⟩ => ⟨hbase, ?_⟩
      simpa [or_imp, forall_and, hvisible] using hno
    · obtain ⟨earlier, hearlier, hpushed⟩ := h.pushed w hw
      exact ⟨earlier, mem_append_left _ hearlier, hpushed⟩

end Step

/-- The versions that the checkpoint writes bring the B-tree from the row as of the last checkpoint
to the row as of the snapshot. -/
theorem checkpoint_writes_snapshot [DecidableEq Identity]
    (hwell : checkpoint.WellFormed base versions)
    (hle : ∀ old ∈ checkpoint.durableTxidMaxOld, old ≤ checkpoint.snapshotTs) :
    (checkpoint.maybeGetCheckpointableVersions versions).foldl writeToBtree
        (checkpoint.rowAt checkpoint.durableTxidMaxOld base versions) =
      checkpoint.rowAt (some checkpoint.snapshotTs) base versions := by
  suffices h : checkpoint.Collects base versions (versions.foldl checkpoint.collectVersion {}) from
    h.exact
  induction versions using reverseRecOn with
  | nil => exact ⟨rfl, fun hbase => .inr ⟨hbase, by simp⟩, by simp, by simp⟩
  | append_singleton before version ih =>
    rw [foldl_append]
    exact (ih hwell.of_append).step hwell hle

/-- The row was in the B-tree and is deleted at 7.  It comes back at 9, after the snapshot. -/
theorem checkpoint_writes_delete :
    let checkpoint : Checkpoint ℕ ℕ := ⟨fun _ => none, some 5, 8, false, fun _ => none⟩
    let versions : List (RowVersion ℕ) := [⟨1, none, some (.timestamp 7), 1, true⟩,
      ⟨2, some (.timestamp 9), none, 2, false⟩]
    (checkpoint.maybeGetCheckpointableVersions versions).foldl writeToBtree
        (checkpoint.rowAt (some 5) (some 1) versions) =
      checkpoint.rowAt (some 8) (some 1) versions := by
  intro checkpoint versions
  refine checkpoint_writes_snapshot ⟨?_, ?_, ?_⟩ (by simp [checkpoint])
  · simp [versions, checkpoint, beginTs, committedTs]
  · simp [versions, checkpoint, firstTs, beginTs, committedTs]
  · rintro - (_ | ⟨first, before⟩) version after happend hbefore -
    · obtain ⟨rfl, -⟩ := cons_eq_cons.mp happend
      rfl
    · obtain ⟨rfl, -⟩ := cons_eq_cons.mp happend
      simp [checkpoint, firstTs, beginTs, committedTs] at hbefore

end Checkpoint

end Turso.Mvcc
