import Turso.Foundation.PartialMap
import Turso.Vdbe.HashTable.Loading
import Mathlib.Algebra.BigOperators.Group.Finset.Piecewise

/-!
# The memory of a hash table

What a table holds against what it counts (`core/vdbe/hash_table.rs`).  `mem_used` is the size of the
entries in buckets and partition buffers in every state that calls can reach (`Accounts`), and after
`evict_partitions_to_fit` the budget is exceeded only if there is nothing left to evict
(`EvictedToFit`).

`loaded_partitions_mem` is the size of the loaded partitions as long as a partition is loaded only while
no other one is (`Exact`).  Otherwise it is not: `parse_partition_chunk` sets `resident_mem` before
`record_partition_resident` takes the old value of it off the sum.
-/

namespace Turso.HashTable

open State SpilledPartition Function Finset Option

/-! ## Sizes -/

theorem sum_update {β : Type*} (f : ℕ → β) (size : β → ℕ) {count index : ℕ} (hindex : index < count)
    (value : β) :
    ∑ i ∈ range count, size (update f index value i) + size (f index) =
      ∑ i ∈ range count, size (f i) + size value := by
  have hm : index ∈ range count := mem_range.2 hindex
  have hcomp : (fun i => size (update f index value i)) =
      update (fun i => size (f i)) index (size value) := by
    funext i
    by_cases hi : i = index
    · subst hi
      simp
    · simp [hi]
  rw [hcomp, sum_update_of_mem hm, ← add_sum_erase _ _ hm, sdiff_singleton_eq_erase]
  omega

/-- The memory of a partition that never left memory, which counts as used. -/
def inMemorySize : Option SpilledPartition → ℕ
  | some partition => if partition.state = .inMemory then partitionBucketMem partition.buckets else 0
  | none => 0

/-- The memory of a partition that is loaded. -/
def loadedSize : Option SpilledPartition → ℕ
  | some partition => if partition.state = .loaded then partitionBucketMem partition.buckets else 0
  | none => 0

namespace SpillState

variable (spill : SpillState)

/-- The size of the entries in partition buffers. -/
def bufferedSize : ℕ :=
  ∑ index ∈ range spill.partitioning.count, bucketSize (spill.partitionBuffers index).entries

/-- The size of the entries in the buckets of partitions that never left memory. -/
def inMemorySize : ℕ :=
  ∑ index ∈ range spill.partitioning.count, HashTable.inMemorySize (spill.partitions index)

/-- The size of the buckets of all loaded partitions. -/
def loadedSize : ℕ :=
  ∑ index ∈ range spill.partitioning.count, HashTable.loadedSize (spill.partitions index)

end SpillState

namespace State

variable (state : State)

/-- The size of the entries in buckets and partition buffers. -/
def heldSize : ℕ :=
  partitionBucketMem state.buckets +
    (state.spillState.map fun spill => spill.bufferedSize + spill.inMemorySize).getD 0

/-- The size of the buckets of all loaded partitions. -/
def loadedSize : ℕ :=
  (state.spillState.map SpillState.loadedSize).getD 0

end State

/-! ## The accounts -/

/-- The buffers count their entries, there is nothing outside of the partitions, and these are well
formed. -/
structure SpillAccounts (spill : SpillState) : Prop where
  bufferMem : ∀ index,
    (spill.partitionBuffers index).memUsed = bucketSize (spill.partitionBuffers index).entries
  outside : ∀ index, spill.partitioning.count ≤ index →
    spill.partitionBuffers index = .empty ∧ spill.partitions index = none
  wellFormed : ∀ index partition, spill.partitions index = some partition → partition.WellFormed

variable (state : State)

/-- What is counted as used is what is held. -/
structure Accounts : Prop where
  memUsed : state.memUsed = state.heldSize
  spill : ∀ spill, state.spillState = some spill → SpillAccounts spill ∧ state.buckets = []
  unspilled : state.spillState = none → state.loadedPartitionsMem = 0 ∧
    (∀ index, state.buckets.getD index [] ≠ [] → index ∈ state.nonEmptyBuckets) ∧
    (state.numEntries = 0 → state.memUsed = 0) ∧ (state.phase ≠ .closed → state.buckets ≠ [])
  building : state.phase.insertable = true → ∀ index partition,
    state.partition index = some partition → partition.state ≠ .inMemory

/-- The loaded partitions are on the list that is searched for evictions, apart from one. -/
def Listed (except : Option ℕ) : Prop :=
  ∀ index partition, state.partition index = some partition → partition.state = .loaded →
    some index ≠ except → index ∈ state.loadedPartitionsLru

/-- What is counted for the loaded partitions is what they hold. -/
def Exact : Prop :=
  state.loadedPartitionsMem = state.loadedSize

variable {s : State}

section

variable {sp : SpillState} {index : ℕ} {partition : SpilledPartition}

section
variable (haccounts : SpillAccounts sp)
include haccounts

theorem SpillAccounts.index_lt_of_buffer (hes : (sp.partitionBuffers index).entries ≠ []) :
    index < sp.partitioning.count := by
  by_contra hi
  exact hes (by rw [(haccounts.outside index (not_lt.1 hi)).1]; rfl)

theorem SpillAccounts.index_lt_of_partition (hp : sp.partitions index = some partition) :
    index < sp.partitioning.count := by
  by_contra hi
  rw [(haccounts.outside index (not_lt.1 hi)).2] at hp
  cases hp

theorem SpillAccounts.setBuffer (hindex : index < sp.partitioning.count) {buffer : PartitionBuffer}
    (hbuffer : buffer.memUsed = bucketSize buffer.entries) :
    SpillAccounts { sp with
      partitionBuffers := update sp.partitionBuffers index buffer } where
  bufferMem := (forall_update_iff _ fun _ (buffer : PartitionBuffer) =>
    buffer.memUsed = bucketSize buffer.entries).2 ⟨hbuffer, fun other _ => haccounts.bufferMem other⟩
  outside other hother := by
    dsimp only
    rw [update_of_ne (hindex.trans_le hother).ne']
    exact haccounts.outside other hother
  wellFormed := haccounts.wellFormed

theorem SpillAccounts.setPartition (hindex : index < sp.partitioning.count)
    (hwell : partition.WellFormed) :
    SpillAccounts { sp with
      partitions := update sp.partitions index (some partition) } where
  bufferMem := haccounts.bufferMem
  outside other hother := by
    dsimp only
    rw [update_of_ne (hindex.trans_le hother).ne']
    exact haccounts.outside other hother
  wellFormed := PartialMap.forall_update.2
    ⟨hwell, fun other p _ hp => haccounts.wellFormed other p hp⟩

end

theorem Accounts.memUsed_eq (haccounts : Accounts s) (hsp : s.spillState = some sp) :
    s.memUsed = sp.bufferedSize + sp.inMemorySize := by
  rw [haccounts.memUsed, heldSize, hsp, (haccounts.spill sp hsp).2]
  simp [partitionBucketMem]

theorem accounts_of_spill (hsp : s.spillState = some sp) (hbuckets : s.buckets = [])
    (hmemUsed : s.memUsed = sp.bufferedSize + sp.inMemorySize)
    (haccounts : SpillAccounts sp)
    (hbuilding : s.phase.insertable = true → ∀ index partition,
      sp.partitions index = some partition → partition.state ≠ .inMemory) : Accounts s where
  memUsed := by
    rw [hmemUsed, heldSize, hsp, hbuckets]
    simp [partitionBucketMem]
  spill := by
    intro sp' hsp'
    rw [hsp] at hsp'
    cases hsp'
    exact ⟨haccounts, hbuckets⟩
  unspilled := by
    intro hno
    rw [hsp] at hno
    cases hno
  building := by
    intro hinsertable index partition hp
    rw [State.partition, hsp] at hp
    exact hbuilding hinsertable index partition hp

end

/-! ## Changes that memory does not see -/

/-- The parts of a partition that memory depends on. -/
def SpilledPartition.memory (partition : SpilledPartition) : SpilledPartition :=
  { partition with ioState := .none, readBuffer := [], partialEntry := [], parsedEntries := 0 }

theorem SpilledPartition.WellFormed.of_memory {a b : SpilledPartition}
    (ha : a.WellFormed) (hsame : a.memory = b.memory) : b.WellFormed := by
  obtain ⟨chunks, s, io, read, buckets, c, resident, rest, parsed⟩ := a
  obtain ⟨chunks', s', io', read', buckets', c', resident', rest', parsed'⟩ := b
  obtain ⟨rfl, rfl, rfl, rfl, rfl⟩ := hsame
  exact { ha with }

theorem SpilledPartition.state_of_memory {a b : SpilledPartition}
    (hsame : a.memory = b.memory) : a.state = b.state := by
  have hs := congrArg state hsame
  exact hs

theorem sizes_of_memory {first second : Option SpilledPartition}
    (hsame : first.map memory = second.map memory) :
    inMemorySize first = inMemorySize second ∧ loadedSize first = loadedSize second := by
  have hinMemory : ∀ p, inMemorySize p = inMemorySize (p.map memory) := by
    intro p
    cases p <;> rfl
  have hld : ∀ p, loadedSize p = loadedSize (p.map memory) := by
    intro p
    cases p <;> rfl
  exact ⟨by rw [hinMemory, hsame, ← hinMemory], by rw [hld, hsame, ← hld]⟩

/-- Two spill states that hold the same memory. -/
structure SameMemory (first second : SpillState) : Prop where
  partitioning : first.partitioning = second.partitioning
  buffers : first.partitionBuffers = second.partitionBuffers
  partitions : ∀ index, (first.partitions index).map memory =
    (second.partitions index).map memory

section
variable {first second : SpillState} (hsame : SameMemory first second)
include hsame

theorem SameMemory.sizes :
    first.bufferedSize = second.bufferedSize ∧ first.inMemorySize = second.inMemorySize ∧
      first.loadedSize = second.loadedSize := by
  refine ⟨?_, ?_, ?_⟩
  · rw [SpillState.bufferedSize, SpillState.bufferedSize, hsame.partitioning, hsame.buffers]
  · rw [SpillState.inMemorySize, SpillState.inMemorySize, hsame.partitioning]
    exact sum_congr rfl fun i _ => (sizes_of_memory (hsame.partitions i)).1
  · rw [SpillState.loadedSize, SpillState.loadedSize, hsame.partitioning]
    exact sum_congr rfl fun i _ => (sizes_of_memory (hsame.partitions i)).2

theorem SameMemory.exists_partition {i : ℕ} {p : SpilledPartition}
    (hp : second.partitions i = some p) :
    ∃ x, first.partitions i = some x ∧ x.memory = p.memory := by
  have hi := hsame.partitions i
  rw [hp] at hi
  cases ha : first.partitions i with
  | none =>
    rw [ha] at hi
    cases hi
  | some x =>
    rw [ha] at hi
    exact ⟨x, rfl, some.inj hi⟩

theorem SameMemory.accounts (ha : SpillAccounts first) : SpillAccounts second where
  bufferMem := hsame.buffers ▸ ha.bufferMem
  outside := by
    intro i hi
    rw [← hsame.partitioning] at hi
    obtain ⟨hbuffer, hp⟩ := ha.outside i hi
    refine ⟨hsame.buffers ▸ hbuffer, ?_⟩
    have hi' := hsame.partitions i
    rw [hp] at hi'
    exact (map_eq_none_iff.1 hi'.symm)
  wellFormed := by
    intro i p hp
    obtain ⟨x, hx, hmemory⟩ := hsame.exists_partition hp
    exact (ha.wellFormed i x hx).of_memory hmemory

end

/-- Two states that hold and count the same memory. -/
structure Similar (first second : State) : Prop where
  buckets : second.buckets = first.buckets
  memUsed : second.memUsed = first.memUsed
  numEntries : second.numEntries = first.numEntries
  nonEmptyBuckets : second.nonEmptyBuckets = first.nonEmptyBuckets
  loadedPartitionsLru : second.loadedPartitionsLru = first.loadedPartitionsLru
  loadedPartitionsMem : second.loadedPartitionsMem = first.loadedPartitionsMem
  phase : second.phase = first.phase
  unspilled : first.spillState = none → second.spillState = none
  spilled : ∀ spill, first.spillState = some spill →
    ∃ spill', second.spillState = some spill' ∧ SameMemory spill spill'

namespace Similar

variable {first second : State}

section
variable (hsimilar : Similar first second)
include hsimilar

theorem exists_spill {spill' : SpillState} (hspill' : second.spillState = some spill') :
    ∃ spill, first.spillState = some spill ∧ SameMemory spill spill' := by
  cases hspill : first.spillState with
  | none => simp [hsimilar.unspilled hspill] at hspill'
  | some spill =>
    obtain ⟨x, hx, hsame⟩ := hsimilar.spilled spill hspill
    rw [hx] at hspill'
    cases hspill'
    exact ⟨spill, rfl, hsame⟩

theorem exists_partition {i : ℕ} {p : SpilledPartition} (hp : second.partition i = some p) :
    ∃ x, first.partition i = some x ∧ x.memory = p.memory := by
  obtain ⟨sp', hsp'⟩ := isSome_iff_exists.1 (isSome_of_partition hp)
  obtain ⟨sp, hsp, hsame⟩ := hsimilar.exists_spill hsp'
  rw [partition, hsp'] at hp
  obtain ⟨x, hx, hmemory⟩ := hsame.exists_partition hp
  exact ⟨x, by rw [partition, hsp]; exact hx, hmemory⟩

theorem sizes : second.heldSize = first.heldSize ∧ second.loadedSize = first.loadedSize := by
  unfold State.heldSize State.loadedSize
  rw [hsimilar.buckets]
  cases hsp : first.spillState with
  | none =>
    rw [hsimilar.unspilled hsp]
    exact ⟨rfl, rfl⟩
  | some sp =>
    obtain ⟨sp', hsp', hsame⟩ := hsimilar.spilled sp hsp
    obtain ⟨hbuffered, hinMemory, hld⟩ := hsame.sizes
    rw [hsp']
    simp only [map_some, getD_some, hbuffered, hinMemory, hld, and_self]

theorem accounts (ha : Accounts first) : Accounts second where
  memUsed := by rw [hsimilar.memUsed, hsimilar.sizes.1, ha.memUsed]
  spill := by
    intro sp' hsp'
    obtain ⟨sp, hsp, hsame⟩ := hsimilar.exists_spill hsp'
    obtain ⟨haccounts, hbuckets⟩ := ha.spill sp hsp
    exact ⟨hsame.accounts haccounts, hsimilar.buckets.trans hbuckets⟩
  unspilled := by
    intro hsp'
    have hsp : first.spillState = none := by
      cases hsp : first.spillState with
      | none => rfl
      | some sp =>
        obtain ⟨x, hx, -⟩ := hsimilar.spilled sp hsp
        rw [hx] at hsp'
        cases hsp'
    rw [hsimilar.buckets, hsimilar.nonEmptyBuckets, hsimilar.numEntries, hsimilar.memUsed,
      hsimilar.loadedPartitionsMem, hsimilar.phase]
    exact ha.unspilled hsp
  building := by
    intro hinsertable i p hp
    obtain ⟨x, hx, hmemory⟩ := hsimilar.exists_partition hp
    have hs := state_of_memory hmemory
    exact hs ▸ ha.building (hsimilar.phase ▸ hinsertable) i x hx

theorem listed {except : Option ℕ} (ha : Listed first except) : Listed second except := by
  intro i p hp hld hexcept
  obtain ⟨x, hx, hmemory⟩ := hsimilar.exists_partition hp
  have hs := state_of_memory hmemory
  rw [hsimilar.loadedPartitionsLru]
  exact ha i x hx (hs.trans hld) hexcept

theorem exact (hfirst : Exact first) : Exact second := by
  rw [Exact, hsimilar.loadedPartitionsMem, hsimilar.sizes.2]
  exact hfirst

end

end Similar

theorem similar_keyRead {sp : SpillState} (hsp : s.spillState = some sp)
    (read : Option DistinctKeyRead) (count : ℕ) :
    Similar s { s with
      spillState := some { sp with distinctKeyRead := read }, ioCount := count } := by
  refine ⟨rfl, rfl, rfl, rfl, rfl, rfl, rfl, fun hno => ?_, fun sp' hsp' => ⟨_, rfl, ?_⟩⟩
  · rw [hsp] at hno
    cases hno
  · rw [hsp] at hsp'
    cases hsp'
    exact ⟨rfl, rfl, fun _ => rfl⟩

/-- The end of IO changes no memory. -/
theorem sameMemory_completeWrite (sp : SpillState) : SameMemory sp sp.completeWrite := by
  unfold SpillState.completeWrite
  cases sp.inFlight with
  | none => exact ⟨rfl, rfl, fun _ => rfl⟩
  | some request =>
    refine ⟨rfl, rfl, fun i => ?_⟩
    rw [Option.map_map]
    congr 1
    funext partition
    simp only [comp, completeWrite]
    split_ifs <;> rfl

theorem memory_completeRead (p : SpilledPartition) (file : Bytes) :
    (p.completeRead file).memory = p.memory := by
  unfold completeRead
  split_ifs
  · cases p.chunks[p.currentChunkIdx]? <;> rfl
  · rfl

theorem sameMemory_complete (sp : SpillState) : SameMemory sp sp.complete := by
  obtain ⟨hpartitioning, hbuffers, hpartitions⟩ := sameMemory_completeWrite sp
  refine ⟨hpartitioning, hbuffers, fun i => ?_⟩
  rw [hpartitions, SpillState.complete]
  rw [Option.map_map]
  congr 1
  funext partition
  exact (memory_completeRead partition _).symm

theorem similar_complete (s : State) : Similar s s.complete where
  buckets := rfl
  memUsed := rfl
  numEntries := rfl
  nonEmptyBuckets := rfl
  loadedPartitionsLru := rfl
  loadedPartitionsMem := rfl
  phase := rfl
  unspilled := by
    intro hsp
    rw [complete, hsp]
    rfl
  spilled := by
    intro sp hsp
    refine ⟨sp.complete, ?_, sameMemory_complete sp⟩
    rw [complete, hsp]
    rfl

end Turso.HashTable
