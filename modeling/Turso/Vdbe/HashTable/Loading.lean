import Turso.Vdbe.HashTable.Operations

/-!
# Loading a partition

What one turn of `load_spilled_partition` (`core/vdbe/hash_table.rs`) can do.  A partition that is on disk
has a chunk to be read next, and no chunk is empty (`SpilledPartition.WellFormed`), so that a load ends
when its last chunk is parsed (`loadTurn_cases`).
-/

namespace Turso.HashTable

open List

/-! ## Partitions of a state -/

namespace State

variable {state : State} {index : ℕ} {partition : SpilledPartition}

theorem partition_setPartition_self (hsp : state.spillState.isSome) :
    (state.setPartition index partition).partition index = some partition := by
  obtain ⟨sp, hsp⟩ := Option.isSome_iff_exists.1 hsp
  simp [setPartition, State.partition, hsp]

theorem partition_setPartition_of_ne {other : ℕ} (hne : other ≠ index) :
    (state.setPartition index partition).partition other = state.partition other := by
  cases hsp : state.spillState with
  | none => simp [setPartition, State.partition, hsp]
  | some sp => simp [setPartition, State.partition, hsp, hne]

theorem partition_of_spill {spill : SpillState} (hspill : state.spillState = some spill)
    (index : ℕ) : state.partition index = spill.partitions index := by
  rw [State.partition, hspill]
  rfl

theorem isSome_of_partition (hp : state.partition index = some partition) :
    state.spillState.isSome := by
  cases hsp : state.spillState with
  | none => simp [State.partition, hsp] at hp
  | some sp => rfl

end State

/-! ## Buckets -/

variable {buckets : Buckets}

theorem flatten_modify_append {i : ℕ} (hi : i < buckets.length) (e : HashEntry) :
    (buckets.modify i (· ++ [e])).flatten.Perm (e :: buckets.flatten) := by
  induction buckets generalizing i with
  | nil => exact absurd hi (Nat.not_lt_zero _)
  | cons bucket buckets ih =>
    cases i with
    | zero =>
      rw [modify_zero_cons, flatten_cons, flatten_cons, append_assoc]
      exact perm_middle
    | succ i =>
      exact ((ih (by simpa using hi)).append_left bucket).trans perm_middle

/-- The entries of a table with buckets after an insertion. -/
theorem flatten_insertBucket (hbuckets : buckets ≠ []) (e : HashEntry) :
    (insertBucket buckets e).flatten.Perm (e :: buckets.flatten) := by
  have hlen := length_pos_of_ne_nil hbuckets
  exact flatten_modify_append (Nat.mod_lt _ hlen) e

variable (buckets : Buckets)

theorem length_insertBucket (e : HashEntry) : (insertBucket buckets e).length = buckets.length :=
  length_modify _ _ _

theorem partitionBucketMem_eq : partitionBucketMem buckets = bucketSize buckets.flatten := by
  simp only [partitionBucketMem, bucketSize, map_flatten, sum_flatten, map_map]
  rfl

/-! ## Partitions on disk -/

namespace SpilledPartition

/-- A partition is in memory without chunks, or has chunks; on disk it has one to be read next. -/
structure WellFormed (partition : SpilledPartition) : Prop where
  inMemory : partition.state = .inMemory → partition.chunks = [] ∧ partition.residentMem = 0
  onDisk : partition.state = .onDisk ∨ partition.state = .loading →
    partition.currentChunkIdx < partition.chunks.length
  loaded : partition.state = .loaded →
    partition.chunks ≠ [] ∧ partition.residentMem = partitionBucketMem partition.buckets
  sizes : ∀ chunk ∈ partition.chunks, chunk.sizeBytes ≠ 0

variable {p : SpilledPartition}

theorem isLoaded_iff : p.isLoaded = true ↔ p.state = .loaded ∨ p.state = .inMemory := by
  simp [isLoaded]

theorem isLoaded_eq_false_iff : p.isLoaded = false ↔ p.state = .onDisk ∨ p.state = .loading := by
  cases hs : p.state <;> simp [isLoaded, hs]

/-- The fields that beginning to load keeps. -/
theorem beginLoad_frame :
    p.beginLoad.chunks = p.chunks ∧ p.beginLoad.currentChunkIdx = p.currentChunkIdx := by
  unfold beginLoad
  split_ifs <;> exact ⟨rfl, rfl⟩

/-- The fields that the end of a read keeps. -/
theorem completeRead_frame (file : Bytes) :
    (p.completeRead file).state = p.state ∧ (p.completeRead file).chunks = p.chunks ∧
      (p.completeRead file).currentChunkIdx = p.currentChunkIdx := by
  unfold completeRead
  split_ifs
  · cases p.chunks[p.currentChunkIdx]? <;> exact ⟨rfl, rfl, rfl⟩
  · exact ⟨rfl, rfl, rfl⟩

/-- The fields that parsing a chunk keeps. -/
theorem parseChunk_frame {parsed : SpilledPartition} (hparse : p.parseChunk = .ok parsed) :
    parsed.chunks = p.chunks ∧ parsed.state = p.state ∧
      parsed.currentChunkIdx = p.currentChunkIdx + 1 := by
  unfold parseChunk at hparse
  obtain ⟨_, -, hparse⟩ := bind_eq_ok.1 hparse
  cases hparse
  exact ⟨rfl, rfl, rfl⟩

end SpilledPartition

/-! ## Turns -/

section
variable (config : Config) (env : Environment) (state : State) (index : ℕ)
  (partition : SpilledPartition)

/-- What a turn does to a partition that is on disk: nothing while a read is under way, the read of
the next chunk, or parsing the chunk that was read. -/
inductive LoadsChunk : State × LoadTurn → Prop
  | waits (hio : partition.ioState = .waitingForRead) :
      LoadsChunk (state, .yield)
  | reads (hio : partition.ioState ≠ .waitingForRead ∧ partition.ioState ≠ .readComplete) :
      LoadsChunk (submitRead env state index partition.beginLoad)
  | parses {parsed : SpilledPartition} (hio : partition.ioState = .readComplete)
      (hparse : partition.parseChunk = .ok parsed)
      (hmore : parsed.currentChunkIdx < parsed.chunks.length) :
      LoadsChunk (state.setPartition index parsed, .again)
  | finishes {parsed : SpilledPartition} (hio : partition.ioState = .readComplete)
      (hparse : partition.parseChunk = .ok parsed)
      (hlast : parsed.chunks.length ≤ parsed.currentChunkIdx) (hleft : parsed.partialEntry = [])
      (hcount : parsed.parsedEntries = parsed.totalNumEntries) :
      LoadsChunk
        (becomeResident config (state.setPartition index { parsed with
            state := .loaded, residentMem := partitionBucketMem parsed.buckets }) index
          (partitionBucketMem parsed.buckets), .done)

end

variable {cfg : Config} {env : Environment} {s next : State} {i : ℕ} {turn : LoadTurn}

/-- A partition on disk has a chunk, which is not empty. -/
theorem loadNextChunk_eq {p : SpilledPartition} (hwell : p.WellFormed) (hld : p.isLoaded = false) :
    loadNextChunk cfg env s i p = submitRead env s i p.beginLoad := by
  have hc := hwell.onDisk (SpilledPartition.isLoaded_eq_false_iff.1 hld)
  rw [loadNextChunk, getElem?_eq_getElem hc]
  dsimp only
  rw [if_neg (hwell.sizes _ (getElem_mem hc))]

theorem loadTurn_cases (hwellFormed : ∀ p, s.partition i = some p → p.WellFormed)
    (hturn : loadTurn cfg env s i = .ok (next, turn)) :
    (s.partition i = none ∧ next = s ∧ turn = .done) ∨
    ∃ p, s.partition i = some p ∧
      ((p.isLoaded = true ∧ next = touchPartitionLru s i ∧ turn = .done) ∨
        (p.isLoaded = false ∧ LoadsChunk cfg env s i p (next, turn))) := by
  unfold loadTurn at hturn
  cases hp : s.partition i with
  | none =>
    rw [hp] at hturn
    cases hturn
    exact .inl ⟨rfl, rfl, rfl⟩
  | some p =>
    rw [hp] at hturn
    right
    refine ⟨p, rfl, ?_⟩
    dsimp only at hturn
    split_ifs at hturn with hld
    · cases hturn
      exact .inl ⟨hld, rfl, rfl⟩
    right
    rw [Bool.not_eq_true] at hld
    refine ⟨hld, ?_⟩
    have hread := @loadNextChunk_eq cfg env s i _ (hwellFormed p hp) hld
    cases hio : p.ioState with
    | none | waitingForWrite | writeComplete =>
      simp only [hio, hread, Except.ok.injEq] at hturn
      rw [← hturn]
      exact .reads (by simp [hio])
    | waitingForRead =>
      rw [hio] at hturn
      cases hturn
      exact .waits hio
    | readComplete =>
      rw [hio] at hturn
      obtain ⟨parsed, hparse, hturn⟩ := bind_eq_ok.1 hturn
      split_ifs at hturn with hmore hleft hn
      · cases hturn
        exact .parses hio hparse hmore
      · cases hturn
        exact .finishes hio hparse (not_lt.1 hmore) (not_not.1 hleft) (not_not.1 hn)

end Turso.HashTable
