import Turso.Vdbe.HashTable.Contents

/-!
# Loading a partition for DISTINCT

`load_spilled_partition` (`core/vdbe/hash_table.rs`) ends with the partition loaded, or yields with
fewer chunks left to be read than before (`loadSpilledPartition_spec`).  Other partitions are unloaded
at most.
-/

namespace Turso.HashTable

open SpilledPartition Function

variable {config : Config} {env : Environment} {state : State} {spill : SpillState} {index : ℕ}

/-! ## What a load leaves alone -/

/-- Only partitions change, and those other than one are unloaded at most. -/
structure Reloads (index : ℕ) (spill spill' : SpillState) : Prop where
  rest : spill' = { spill with partitions := spill'.partitions }
  others : ∀ other ≠ index, spill'.partitions other = spill.partitions other ∨
    ∃ partition, spill.partitions other = some partition ∧
      spill'.partitions other = some partition.unload

theorem Reloads.refl (i : ℕ) (spill : SpillState) : Reloads i spill spill :=
  ⟨rfl, fun _ _ => .inl rfl⟩

theorem Reloads.trans {a b third : SpillState} (ha : Reloads index a b)
    (hb : Reloads index b third) : Reloads index a third where
  rest := by
    rw [hb.rest, ha.rest]
  others := by
    intro x hx
    rcases hb.others x hx with hsame | ⟨p, hp, hunloaded⟩
    · rw [hsame]
      exact ha.others x hx
    · right
      rcases ha.others x hx with hsame | ⟨p', hp', hunloaded'⟩
      · exact ⟨p, hsame ▸ hp, hunloaded⟩
      · refine ⟨p', hp', ?_⟩
        rw [hp] at hunloaded'
        cases hunloaded'
        exact hunloaded

/-- A state that a load of the partition leads to. -/
def ReloadsTo (index : ℕ) (spill : SpillState) (next : Option SpilledPartition) (final : State) :
    Prop :=
  ∃ spill', final.spillState = some spill' ∧ Reloads index spill spill' ∧
    spill'.partitions index = next

theorem reloads_setPartition (hsp : state.spillState = some spill) (partition : SpilledPartition) :
    ReloadsTo index spill (some partition) (state.setPartition index partition) := by
  refine ⟨_, by rw [State.setPartition, hsp]; rfl, ⟨rfl, fun other hother => ?_⟩, ?_⟩
  · exact .inl (update_of_ne hother _ _)
  · exact update_self _ _ _

theorem reloads_evictLoop (hspill : state.spillState = some spill) (incomingMem turns : ℕ) :
    ReloadsTo index spill (spill.partitions index)
      (evictLoop config incomingMem index turns state) := by
  refine @evictLoop_induction _ _ _ (ReloadsTo index spill (spill.partitions index)) _ _ ?_
    ⟨spill, hspill, .refl index spill, rfl⟩
  rintro s victim ⟨sp', hsp', hreloads, hsame⟩ hvictim
  obtain ⟨hne, p, hp, -⟩ := evictable_iff.1 hvictim
  refine ⟨{ sp' with partitions := update sp'.partitions victim (some p.unload) }, ?_,
    hreloads.trans ⟨rfl, fun other _ => ?_⟩, (update_of_ne hne.symm _ _).trans hsame⟩
  · rw [evictPartition, hp]
    change (s.setPartition victim p.unload).spillState = _
    rw [State.setPartition, hsp']
    rfl
  · by_cases hother : other = victim
    · subst hother
      exact .inr ⟨p, State.partition_of_spill hsp' other ▸ hp, update_self _ _ _⟩
    · exact .inl (update_of_ne hother _ _)

theorem reloads_becomeResident (hsp : state.spillState = some spill)
    {partition : SpilledPartition} (hpartition : spill.partitions index = some partition)
    (residentMem : ℕ) :
    ReloadsTo index spill (some { partition with residentMem := residentMem })
      (becomeResident config state index residentMem) := by
  obtain ⟨evicted, hevicted, hreloads, hsame⟩ :=
    @reloads_evictLoop config _ _ index hsp residentMem (state.loadedPartitionsLru.length + 1)
  rw [hpartition] at hsame
  have hpartition' := (State.partition_of_spill hevicted index).trans hsame
  obtain ⟨resident, hresident, hreloads', hself⟩ :=
    @reloads_setPartition _ _ index hevicted { partition with residentMem := residentMem }
  refine ⟨resident, ?_, hreloads.trans hreloads', hself⟩
  rw [becomeResident, recordPartitionResident, evictPartitionsToFit, hpartition']
  exact hresident

/-! ## Turns -/

variable (partition : SpilledPartition)

/-- The number of chunks that are still to be read. -/
def SpilledPartition.unread : ℕ :=
  partition.chunks.length - partition.currentChunkIdx -
    if partition.ioState = .readComplete then 1 else 0

/-- The number of turns that a load takes at most. -/
def SpilledPartition.turnsLeft : ℕ :=
  2 * (partition.chunks.length - partition.currentChunkIdx) -
    if partition.ioState = .readComplete then 1 else 0

/-- A partition that is being loaded, between two turns. -/
structure Loading (file : Bytes) (contents : List (List HashEntry)) (partition : SpilledPartition) :
    Prop where
  holds : PartitionHolds file partition contents
  notLoaded : partition.isLoaded = false
  ready : partition.ioState ≠ .waitingForRead

/-- What a turn leads to. -/
inductive LoadProgress (file : Bytes) (contents : List (List HashEntry))
    (partition next : SpilledPartition) : LoadTurn → Prop
  | again (hnext : Loading file contents next) (hturns : next.turnsLeft < partition.turnsLeft)
      (hunread : next.unread ≤ partition.unread) : LoadProgress file contents partition next .again
  | done (hnext : PartitionHolds file next contents) (hloaded : next.state = .loaded)
      (hio : next.ioState ≠ .waitingForRead) : LoadProgress file contents partition next .done
  | yield (hnext : PartitionHolds file next contents) (hloading : next.state = .loading)
      (hindex : next.currentChunkIdx < next.chunks.length) (hio : next.ioState = .waitingForRead)
      (hunread : next.chunks.length - next.currentChunkIdx ≤ partition.unread) :
      LoadProgress file contents partition next .yield

/-- A turn succeeds and leads on. -/
def Advances (index : ℕ) (spill : SpillState) (contents : List (List HashEntry))
    (partition : SpilledPartition) (outcome : Except LimboError (State × LoadTurn)) : Prop :=
  ∃ final turn next, outcome = .ok (final, turn) ∧ ReloadsTo index spill (some next) final ∧
    LoadProgress spill.file contents partition next turn

variable {partition : SpilledPartition} {contents : List (List HashEntry)}

section
variable (hsp : state.spillState = some spill) (hwell : partition.WellFormed)
  (hloading : Loading spill.file contents partition)
include hsp hwell hloading

theorem submitRead_spec (hio : partition.ioState ≠ .readComplete) :
    Advances index spill contents partition
      (.ok (submitRead env state index partition.beginLoad)) := by
  have hindex := hwell.onDisk (isLoaded_eq_false_iff.1 hloading.notLoaded)
  set reading : SpilledPartition :=
    { partition.beginLoad with ioState := .waitingForRead, state := .loading } with hreading
  have hholds : PartitionHolds spill.file reading contents :=
    hloading.holds.reading hloading.notLoaded
  have hchunks : reading.chunks = partition.chunks := beginLoad_frame.1
  have hcurrent : reading.currentChunkIdx = partition.currentChunkIdx := beginLoad_frame.2
  have hindex' : reading.currentChunkIdx < reading.chunks.length := by
    rw [hchunks, hcurrent]
    exact hindex
  have hfile : (state.spillState.map SpillState.file).getD [] = spill.file := by
    rw [hsp]
    rfl
  unfold submitRead
  rw [hfile]
  split_ifs
  · have hcomplete : (reading.completeRead spill.file).ioState = .readComplete := by
      rw [completeRead, if_pos rfl, List.getElem?_eq_getElem hindex']
    obtain ⟨hstate, hchunks', hcurrent'⟩ := @completeRead_frame reading spill.file
    rw [hchunks] at hchunks'
    rw [hcurrent] at hcurrent'
    refine ⟨_, _, reading.completeRead spill.file, rfl, reloads_setPartition hsp _,
      .again ⟨?_, ?_, ?_⟩ ?_ ?_⟩
    · exact hholds.completeRead rfl hindex'
    · rw [isLoaded, hstate]
      rfl
    · simp [hcomplete]
    · rw [turnsLeft, turnsLeft, hchunks', hcurrent', if_pos hcomplete, if_neg hio]
      omega
    · rw [unread, unread, hchunks', hcurrent', if_pos hcomplete, if_neg hio]
      omega
  · refine ⟨_, _, reading, rfl, reloads_setPartition hsp _, .yield hholds rfl hindex' rfl ?_⟩
    rw [hchunks, hcurrent, unread, if_neg hio]
    omega

variable (hfits : ∀ es ∈ contents, ∀ entry ∈ es, entry.Fits ∧ entry.serializedSize < 2 ^ 64)
include hfits

theorem parsePartitionChunk_spec (hio : partition.ioState = .readComplete) :
    Advances index spill contents partition
      (parsePartitionChunk config state index partition) := by
  have hholds := hloading.holds
  have hindex := hwell.onDisk (isLoaded_eq_false_iff.1 hloading.notLoaded)
  have hstate : partition.state = .loading := by
    rcases isLoaded_eq_false_iff.1 hloading.notLoaded with hstate | hstate
    · exact absurd hio (hholds.onDisk hstate).2
    · exact hstate
  obtain ⟨parsed, count, hparse, hcount, hbuckets, hleft, hno, hparsed⟩ :=
    hholds.parseChunk hstate hio hfits
  obtain ⟨hchunks, hstate', hcurrent⟩ := parseChunk_frame hparse
  have hparsedChunks : List.Forall₂ (ChunkHolds spill.file) parsed.chunks contents :=
    hchunks ▸ hholds.chunks
  unfold parsePartitionChunk
  rw [hparse]
  simp only [bind, Except.bind]
  by_cases hmore : parsed.currentChunkIdx < parsed.chunks.length
  · rw [if_pos hmore]
    have hloading' : Loading spill.file contents parsed := by
      refine ⟨⟨hparsedChunks, ?_, ?_, fun _ => ?_, ?_⟩, ?_, ?_⟩
      · simp [hstate', hstate]
      · simp [hstate', hstate]
      · exact ⟨count, hcount, hbuckets, hleft, hparsed, by simp [hno]⟩
      · simp [hstate', hstate]
      · rw [isLoaded, hstate', hstate]
        rfl
      · simp [hno]
    refine ⟨_, _, parsed, rfl, reloads_setPartition hsp parsed, .again hloading' ?_ ?_⟩
    · rw [turnsLeft, turnsLeft, hchunks, hcurrent, if_pos hio, if_neg (by simp [hno])]
      omega
    · rw [unread, unread, hchunks, hcurrent, if_pos hio, if_neg (by simp [hno])]
      omega
  · have hall : contents.take parsed.currentChunkIdx = contents := by
      rw [List.take_eq_self_iff, ← hparsedChunks.length_eq]
      exact not_lt.1 hmore
    rw [hall] at hbuckets hparsed
    have htotal : parsed.totalNumEntries = contents.flatten.length := by
      rw [← hholds.totalNumEntries_eq, totalNumEntries, hchunks]
      rfl
    rw [if_neg hmore, if_neg (by simp [hleft]), if_neg (by simp [hparsed, htotal])]
    set resident : SpilledPartition :=
      { parsed with state := .loaded, residentMem := partitionBucketMem parsed.buckets }
    obtain ⟨set', hset', hreloads, hself⟩ := @reloads_setPartition _ _ index hsp resident
    obtain ⟨sp', hsp', hreloads', hself'⟩ := @reloads_becomeResident config _ _ index hset' _
      hself (partitionBucketMem parsed.buckets)
    refine ⟨_, _, _, rfl, ⟨sp', hsp', hreloads.trans hreloads', hself'⟩, .done ?_ rfl ?_⟩
    · exact ⟨hparsedChunks, by simp [resident], by simp [resident], by simp [resident],
        fun _ => ⟨count, hcount, hbuckets⟩⟩
    · simp [resident, hno]

theorem loadTurn_spec (hpartition : spill.partitions index = some partition) :
    Advances index spill contents partition (loadTurn config env state index) := by
  have hstate := (State.partition_of_spill hsp index).trans hpartition
  have hsubmit : partition.ioState ≠ .readComplete →
      loadTurn config env state index = .ok (loadNextChunk config env state index partition) →
      Advances index spill contents partition (loadTurn config env state index) := by
    intro hio hturn
    rw [hturn, loadNextChunk_eq hwell hloading.notLoaded]
    exact submitRead_spec hsp hwell hloading hio
  cases hio : partition.ioState with
  | none => exact hsubmit (by simp [hio]) (by simp [loadTurn, hstate, hloading.notLoaded, hio])
  | waitingForWrite | writeComplete =>
    exact hsubmit (by simp [hio]) (by simp [loadTurn, hstate, hloading.notLoaded, hio])
  | waitingForRead => exact absurd hio hloading.ready
  | readComplete =>
    have hturn : loadTurn config env state index =
        parsePartitionChunk config state index partition := by
      simp [loadTurn, hstate, hloading.notLoaded, hio]
    rw [hturn]
    exact parsePartitionChunk_spec hsp hwell hloading hfits hio

end

/-! ## The loop -/

/-- What a load leads to. -/
def LoadOutcome (file : Bytes) (contents : List (List HashEntry)) (partition next : SpilledPartition) :
    IOResult Unit → Prop
  | .done () => PartitionHolds file next contents ∧ next.state = .loaded ∧
      next.ioState ≠ .waitingForRead
  | .io => PartitionHolds file next contents ∧ next.state = .loading ∧
      next.currentChunkIdx < next.chunks.length ∧ next.ioState = .waitingForRead ∧
      next.chunks.length - next.currentChunkIdx ≤ partition.unread

section
variable (hsound : Sound state) (hsp : state.spillState = some spill)
  (hpartition : spill.partitions index = some partition)
  (hloading : Loading spill.file contents partition)
  (hfits : ∀ es ∈ contents, ∀ entry ∈ es, entry.Fits ∧ entry.serializedSize < 2 ^ 64)
include hsound hsp hpartition hloading hfits

theorem loadLoop_spec {turns : ℕ} (hturns : partition.turnsLeft ≤ turns) :
    ∃ final result next, loadLoop config env index turns state = .ok (final, result) ∧
      ReloadsTo index spill (some next) final ∧
      LoadOutcome spill.file contents partition next result := by
  have hwell : partition.WellFormed :=
    (hsound.accounts.spill spill hsp).1.wellFormed index partition hpartition
  induction turns generalizing state spill partition with
  | zero =>
    have hi := hwell.onDisk (isLoaded_eq_false_iff.1 hloading.notLoaded)
    rw [turnsLeft] at hturns
    split_ifs at hturns <;> omega
  | succ turns ih =>
    obtain ⟨middle, turn, next, hturn, ⟨sp', hsp', hreloads, hself⟩, hprogress⟩ :=
      @loadTurn_spec config env _ _ _ _ _ hsp hwell hloading hfits hpartition
    have hfile : sp'.file = spill.file := by
      rw [hreloads.rest]
    rw [loadLoop, hturn]
    cases hprogress with
    | again hnx hless hunread =>
      obtain ⟨final, result, next', hloop, ⟨spill'', hspill'', hreloads', hself'⟩, houtcome⟩ :=
        ih (hsound.loadTurn hturn) hsp' hself (hfile ▸ hnx) (by omega)
          ((hsound.loadTurn hturn).accounts.spill sp' hsp' |>.1.wellFormed index next hself)
      refine ⟨final, result, next', hloop, ⟨spill'', hspill'', hreloads.trans hreloads', hself'⟩, ?_⟩
      rw [hfile] at houtcome
      cases result with
      | done => exact houtcome
      | io =>
        obtain ⟨hholds, ht, hi, hio, hleft⟩ := houtcome
        exact ⟨hholds, ht, hi, hio, hleft.trans hunread⟩
    | done hnx hloaded hio =>
      exact ⟨middle, .done (), next, rfl, ⟨sp', hsp', hreloads, hself⟩, hnx, hloaded, hio⟩
    | yield hnx ht hi hio hunread =>
      exact ⟨middle, .io, next, rfl, ⟨sp', hsp', hreloads, hself⟩, hnx, ht, hi, hio, hunread⟩

theorem loadSpilledPartition_spec :
    ∃ final result next, loadSpilledPartition config env state index = .ok (final, result) ∧
      ReloadsTo index spill (some next) final ∧
      LoadOutcome spill.file contents partition next result := by
  have hstate := (State.partition_of_spill hsp index).trans hpartition
  unfold loadSpilledPartition
  rw [hstate, Option.map_some, Option.getD_some]
  refine loadLoop_spec hsound hsp hpartition hloading hfits ?_
  unfold turnsLeft
  omega

end

end Turso.HashTable
