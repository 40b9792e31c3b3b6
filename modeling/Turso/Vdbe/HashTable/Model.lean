import Turso.Vdbe.HashTable.Entry
import Mathlib.Data.List.Sort

/-!
# The hash table

`HashTable` (`core/vdbe/hash_table.rs`), the table of hash joins and of DISTINCT.  Entries are in buckets
until they exceed the memory budget.  From then on they go to the buffer of their partition, and whole
buffers are written to a spill file as chunks of their partitions.  A partition is loaded back into
buckets of its own; loaded partitions are evicted again, the least recently used first.  For DISTINCT
the table notes for each hash where its keys are (`DistinctKeyPlace`), so that a duplicate on disk is
found by reading one entry.

Calls can yield for IO and are then made again, so their progress is part of the state.  Whether an IO
has ended when it is submitted is up to an `Environment`; otherwise it ends with `State.complete`.  IO
does not fail.  The vector of spilled partitions is searched by index and so is a partial function.
-/

namespace Turso.HashTable

/-! ## Places of DISTINCT keys -/

/-- `DistinctKeyPlace`. -/
inductive DistinctKeyPlace where
  | inBuffer
  | onDisk (offset len : ℕ)
  | onDiskWithoutOffset
  | sharedByDifferentKeys
  deriving DecidableEq

namespace PackedDistinctKeyPlace

/-- `LEN_BITS`. -/
def lenBits : ℕ := 24

def inBuffer : ℕ := 2 ^ 64 - 1
def sharedByDifferentKeys : ℕ := 2 ^ 64 - 2
def onDiskWithoutOffset : ℕ := 2 ^ 64 - 3

/-- `PackedDistinctKeyPlace::new`. -/
def new : DistinctKeyPlace → ℕ
  | .inBuffer => inBuffer
  | .sharedByDifferentKeys => sharedByDifferentKeys
  | .onDiskWithoutOffset => onDiskWithoutOffset
  | .onDisk offset len =>
    if offset < 2 ^ (64 - lenBits) - 1 ∧ len < 2 ^ lenBits then offset * 2 ^ lenBits + len
    else onDiskWithoutOffset

/-- `PackedDistinctKeyPlace::get`. -/
def get (packed : ℕ) : DistinctKeyPlace :=
  if packed = inBuffer then .inBuffer
  else if packed = sharedByDifferentKeys then .sharedByDifferentKeys
  else if packed = onDiskWithoutOffset then .onDiskWithoutOffset
  else .onDisk (packed / 2 ^ lenBits) (packed % 2 ^ lenBits)

/-- What a packed place stands for; only a place on disk can lose its offset. -/
theorem get_new (place : DistinctKeyPlace) : get (new place) = place ∨
      ((∃ offset len, place = .onDisk offset len) ∧ get (new place) = .onDiskWithoutOffset) := by
  cases place with
  | inBuffer | onDiskWithoutOffset | sharedByDifferentKeys => exact .inl rfl
  | onDisk offset len =>
    rw [new]
    split_ifs with hfits
    · left
      have hbits : lenBits = 24 := rfl
      rw [hbits] at hfits
      have hbelow : offset * 2 ^ lenBits + len < onDiskWithoutOffset := by
        rw [hbits, onDiskWithoutOffset]
        omega
      have hless : onDiskWithoutOffset < sharedByDifferentKeys := by decide
      have hless' : sharedByDifferentKeys < inBuffer := by decide
      have hdiv : (offset * 2 ^ lenBits + len) / 2 ^ lenBits = offset := by
        rw [hbits]
        omega
      have hmod : (offset * 2 ^ lenBits + len) % 2 ^ lenBits = len := by
        rw [hbits]
        omega
      rw [get, if_neg (by omega), if_neg (by omega), if_neg hbelow.ne, hdiv, hmod]
    · exact .inr ⟨⟨offset, len, rfl⟩, rfl⟩

end PackedDistinctKeyPlace

/-- The places of the keys of a partition, by their hashes. -/
abbrev Places := UInt64 → Option ℕ

/-- `record_distinct_key_on_disk`. -/
def recordDistinctKeyOnDisk (places : Places) (hash : UInt64) (offset len : ℕ) :
    Except LimboError Places :=
  match places hash with
  | none => .ok places
  | some packed =>
    match PackedDistinctKeyPlace.get packed with
    | .onDisk _ _ | .onDiskWithoutOffset =>
      .error (.assertion
        "a buffered DISTINCT key cannot share its hash with a key already on disk")
    | .inBuffer =>
      .ok (Function.update places hash (some (PackedDistinctKeyPlace.new (.onDisk offset len))))
    | .sharedByDifferentKeys => .ok places

/-! ## Partitions -/

/-- `PartitionState`. -/
inductive PartitionState where
  | inMemory
  | onDisk
  | loading
  | loaded
  deriving DecidableEq

/-- `SpillIOState`; IO does not fail. -/
inductive SpillIOState where
  | none
  | waitingForWrite
  | writeComplete
  | waitingForRead
  | readComplete
  deriving DecidableEq

/-- `SpillChunk`. -/
structure SpillChunk where
  fileOffset : ℕ
  sizeBytes : ℕ
  numEntries : ℕ
  deriving DecidableEq

abbrev Buckets := List (List HashEntry)

/-- `HashBucket::size_bytes`. -/
def bucketSize (bucket : List HashEntry) : ℕ :=
  (bucket.map HashEntry.sizeBytes).sum

/-- `partition_bucket_mem`. -/
def partitionBucketMem (buckets : Buckets) : ℕ :=
  (buckets.map bucketSize).sum

/-- An entry goes to the bucket of its hash. -/
def insertBucket (buckets : Buckets) (entry : HashEntry) : Buckets :=
  buckets.modify (bucketIndex buckets.length entry.hash) (· ++ [entry])

/-- `next_power_of_two`. -/
def nextPowerOfTwo (n : ℕ) : ℕ := 2 ^ Nat.clog 2 n

/-- `SpilledPartition`, without its index and the marks of outer joins. -/
structure SpilledPartition where
  chunks : List SpillChunk
  state : PartitionState
  ioState : SpillIOState
  readBuffer : Bytes
  buckets : Buckets
  currentChunkIdx : ℕ
  residentMem : ℕ
  partialEntry : Bytes
  parsedEntries : ℕ
  deriving DecidableEq

namespace SpilledPartition

/-- `SpilledPartition::new`. -/
def new : SpilledPartition where
  chunks := []
  state := .onDisk
  ioState := .none
  readBuffer := []
  buckets := []
  currentChunkIdx := 0
  residentMem := 0
  partialEntry := []
  parsedEntries := 0

variable (partition : SpilledPartition)

/-- `total_num_entries`. -/
def totalNumEntries : ℕ :=
  (partition.chunks.map SpillChunk.numEntries).sum

/-- `is_loaded`. -/
def isLoaded : Bool :=
  partition.state = .loaded || partition.state = .inMemory

/-- `unload`; the memory it frees is `residentMem`. -/
def unload : SpilledPartition :=
  { new with chunks := partition.chunks }

/-- `add_chunk`, for a write that is submitted next. -/
def addChunk (chunk : SpillChunk) : SpilledPartition :=
  { partition with chunks := partition.chunks ++ [chunk], ioState := .waitingForWrite }

/-- The buckets are made anew when the first chunk is loaded. -/
def beginLoad : SpilledPartition :=
  if partition.state = .onDisk ∧ partition.currentChunkIdx = 0 then
    { partition with
      buckets := List.replicate (max (nextPowerOfTwo partition.totalNumEntries) 64) []
      parsedEntries := 0
      partialEntry := [] }
  else partition

end SpilledPartition

/-- `PartitionBuffer`. -/
structure PartitionBuffer where
  entries : List HashEntry
  memUsed : ℕ
  deriving DecidableEq

namespace PartitionBuffer

def empty : PartitionBuffer := ⟨[], 0⟩

/-- `insert`. -/
def insert (buffer : PartitionBuffer) (entry : HashEntry) : PartitionBuffer :=
  ⟨buffer.entries ++ [entry], buffer.memUsed + entry.sizeBytes⟩

end PartitionBuffer

/-- `DistinctKeyRead`. -/
structure DistinctKeyRead where
  offset : ℕ
  len : ℕ
  ioState : SpillIOState
  bytes : Bytes
  deriving DecidableEq

/-- `SpillState`, with the contents of its file and the write that has been submitted to it. -/
structure SpillState where
  partitionBuffers : ℕ → PartitionBuffer
  partitions : ℕ → Option SpilledPartition
  nextSpillOffset : ℕ
  file : Bytes
  inFlight : Option (ℕ × Bytes)
  partitioning : Partitioning
  distinctKeyPlaces : ℕ → Places
  distinctKeyRead : Option DistinctKeyRead

/-- `SpillState::new`. -/
def SpillState.new (partitioning : Partitioning) : SpillState where
  partitionBuffers _ := .empty
  partitions _ := none
  nextSpillOffset := 0
  file := []
  inFlight := none
  partitioning := partitioning
  distinctKeyPlaces _ _ := none
  distinctKeyRead := none

/-! ## The table -/

/-- `HashTableState`. -/
inductive HashTableState where
  | building
  | probing
  | spilled
  | graceProcessing
  | closed
  deriving DecidableEq

/-- Whether entries can be inserted. -/
def HashTableState.insertable (phase : HashTableState) : Bool :=
  phase = .building || phase = .spilled

/-- The settings of a table, with the hash function. -/
structure Config where
  locales : HashLocales
  hasher : List HashWrite → UInt64
  collations : List CollationSeq
  initialBuckets : ℕ
  initialBuckets_pos : 0 < initialBuckets
  memBudget : ℕ
  trackMatched : Bool
  partitionCount : Option Partitioning

/-- Whether an IO has ended when it is submitted, by the number of earlier ones. -/
abbrev Environment := ℕ → Bool

/-- `HashTable`, as far as entries and their memory go. -/
structure State where
  buckets : Buckets
  numEntries : ℕ
  memUsed : ℕ
  phase : HashTableState
  spillState : Option SpillState
  nonEmptyBuckets : List ℕ
  loadedPartitionsLru : List ℕ
  loadedPartitionsMem : ℕ
  ioCount : ℕ

/-- `HashTable::new`. -/
def State.new (config : Config) : State where
  buckets := List.replicate config.initialBuckets []
  numEntries := 0
  memUsed := 0
  phase := .building
  spillState := none
  nonEmptyBuckets := []
  loadedPartitionsLru := []
  loadedPartitionsMem := 0
  ioCount := 0

variable (config : Config) (env : Environment)

/-- `hash_join_key`. -/
def Config.hash (key : List Value) : UInt64 :=
  config.hasher (keyWrites config.locales config.collations key)

/-- A key of the table against another. -/
def Config.equal (first second : List Value) : Bool :=
  keysEqualDistinct config.locales config.collations first second

/-- `choose_partition_count`. -/
def choosePartitioning (state : State) (entrySize : ℕ) : Partitioning :=
  match config.partitionCount with
  | some partitioning => partitioning
  | none =>
    let avgEntrySize :=
      if 0 < state.numEntries then max (state.memUsed / state.numEntries) entrySize
      else max entrySize 1
    let targetPartitionBytes := max (config.memBudget / 2) avgEntrySize
    let targetEntriesPerPartition := max (targetPartitionBytes / avgEntrySize) 1
    let partitions :=
      (state.numEntries + 1 + targetEntriesPerPartition - 1) / targetEntriesPerPartition
    { bits := Nat.clog 2 (max 16 (min partitions 128))
      bits_le := by
        have hbound : max 16 (min partitions 128) ≤ 2 ^ 64 := by omega
        exact Nat.clog_le_of_le_pow hbound }

/-! ## Files -/

/-- What a write leaves in a file. -/
def pwrite (file : Bytes) (offset : ℕ) (data : Bytes) : Bytes :=
  file.take offset ++ List.replicate (offset - file.length) 0 ++ data ++
    file.drop (offset + data.length)

/-- What a read returns. -/
def pread (file : Bytes) (offset len : ℕ) : Bytes :=
  (file.drop offset).take len

namespace SpilledPartition

variable (partition : SpilledPartition)

/-- The callback of a write. -/
def completeWrite : SpilledPartition :=
  if partition.ioState = .waitingForWrite then { partition with ioState := .writeComplete }
  else partition

/-- The callback of a read. -/
def completeRead (file : Bytes) : SpilledPartition :=
  if partition.ioState = .waitingForRead then
    match partition.chunks[partition.currentChunkIdx]? with
    | some chunk =>
      { partition with
        readBuffer := pread file chunk.fileOffset chunk.sizeBytes
        ioState := .readComplete }
    | none => partition
  else partition

end SpilledPartition

/-- The callback of the read of a key. -/
def DistinctKeyRead.complete (read : DistinctKeyRead) (file : Bytes) : DistinctKeyRead :=
  if read.ioState = .waitingForRead then
    { read with bytes := pread file read.offset read.len, ioState := .readComplete }
  else read

namespace SpillState

variable (spill : SpillState)

/-- A write that was submitted ends. -/
def completeWrite : SpillState :=
  match spill.inFlight with
  | some (offset, data) =>
    { spill with
      file := pwrite spill.file offset data
      inFlight := none
      partitions := fun index => (spill.partitions index).map SpilledPartition.completeWrite }
  | none => spill

/-- All IO that was submitted ends. -/
def complete : SpillState :=
  let spill := spill.completeWrite
  { spill with
    partitions := fun index => (spill.partitions index).map (·.completeRead spill.file)
    distinctKeyRead := spill.distinctKeyRead.map (·.complete spill.file) }

end SpillState

/-- All IO that was submitted ends. -/
def State.complete (state : State) : State :=
  { state with spillState := state.spillState.map SpillState.complete }

/-! ## Spilling -/

/-- The entries of a buffer as bytes of the file from an offset on, and the places of their keys. -/
def serializeBuffer : Places → ℕ → List HashEntry → Except LimboError (Bytes × Places)
  | places, _, [] => .ok ([], places)
  | places, offset, entry :: entries => do
    let header := writeVarint entry.serializedSize
    let places ←
      recordDistinctKeyOnDisk places entry.hash (offset + header.length) entry.serializedSize
    let (data, places) ←
      serializeBuffer places (offset + header.length + entry.serialize.length) entries
    .ok (header ++ entry.serialize ++ data, places)

/-- The partition that a chunk is added to, and the memory that is freed where it is loaded. -/
def partitionForSpill : Option SpilledPartition → SpilledPartition × ℕ
  | some existing =>
    if existing.state = .loaded then (existing.unload, existing.residentMem) else (existing, 0)
  | none => (.new, 0)

/-- One partition of `spill_multiple_partitions`; the second component is the memory of loaded
partitions, the third what has been serialized so far. -/
def spillBuffer (progress : SpillState × ℕ × Bytes) (index : ℕ) :
    Except LimboError (SpillState × ℕ × Bytes) := do
  let (spill, loadedMem, written) := progress
  let buffer := spill.partitionBuffers index
  let fileOffset := spill.nextSpillOffset + written.length
  let (data, places) ← serializeBuffer (spill.distinctKeyPlaces index) fileOffset buffer.entries
  let (partition, freed) := partitionForSpill (spill.partitions index)
  let partition := partition.addChunk ⟨fileOffset, data.length, buffer.entries.length⟩
  .ok ({ spill with
      partitionBuffers := Function.update spill.partitionBuffers index .empty
      partitions := Function.update spill.partitions index (some partition)
      distinctKeyPlaces := Function.update spill.distinctKeyPlaces index places },
    loadedMem - freed, written ++ data)

section
variable (state : State)

section
variable (spill : SpillState)

/-- The write of `spill_multiple_partitions`, and whether it has ended. -/
def submitWrite (data : Bytes) : State × Bool :=
  let spill :=
    { spill with
      nextSpillOffset := spill.nextSpillOffset + data.length
      inFlight := some (spill.nextSpillOffset, data) }
  if env state.ioCount then
    ({ state with spillState := some spill.completeWrite, ioCount := state.ioCount + 1 }, true)
  else ({ state with spillState := some spill, ioCount := state.ioCount + 1 }, false)

/-- `spill_multiple_partitions`: the completion of the write is none, or whether it has ended. -/
def spillMultiplePartitions (indices : List ℕ) : Except LimboError (State × Option Bool) := do
  let indices := indices.filter fun index => (spill.partitionBuffers index).entries ≠ []
  if indices = [] then .ok (state, none)
  else do
    let memFreed := (indices.map fun index => (spill.partitionBuffers index).memUsed).sum
    let (spill, loadedMem, data) ←
      indices.foldlM spillBuffer (spill, state.loadedPartitionsMem, [])
    if state.memUsed < memFreed then .error .overflow
    else
      let state :=
        { state with memUsed := state.memUsed - memFreed, loadedPartitionsMem := loadedMem }
      let (state, finished) := submitWrite env state spill data
      .ok (state, some finished)

/-- `spill_partition`. -/
def spillPartition (index : ℕ) : Except LimboError (State × Option Bool) :=
  spillMultiplePartitions env state spill [index]

/-- The loop of `spill_partitions_for_entry` over the candidates, the largest first. -/
def partitionsToSpill (entrySize : ℕ) : ℕ → List (ℕ × ℕ) → List ℕ
  | _, [] => []
  | projectedMemUsed, (index, memUsed) :: candidates =>
    if projectedMemUsed + entrySize ≤ config.memBudget then []
    else index :: partitionsToSpill entrySize (projectedMemUsed - memUsed) candidates

/-- The buffers that are not empty, with their sizes, the largest first. -/
def spillCandidates : List (ℕ × ℕ) :=
  (((List.range spill.partitioning.count).filter fun index =>
    (spill.partitionBuffers index).entries ≠ []).map fun index =>
      (index, (spill.partitionBuffers index).memUsed)).insertionSort fun first second =>
        second.2 ≤ first.2

/-- `spill_partitions_for_entry`. -/
def spillPartitionsForEntry (entrySize : ℕ) : Except LimboError (State × Option Bool) :=
  if state.memUsed + entrySize ≤ config.memBudget then .ok (state, none)
  else spillMultiplePartitions env state spill
    (partitionsToSpill config entrySize state.memUsed (spillCandidates spill))

end

/-! ## Resident partitions -/

/-- `touch_partition_lru`. -/
def touchPartitionLru (index : ℕ) : State :=
  { state with loadedPartitionsLru := state.loadedPartitionsLru.erase index ++ [index] }

/-- `find_partition`. -/
def State.partition (index : ℕ) : Option SpilledPartition :=
  state.spillState.bind (·.partitions index)

/-- The partition of an index is changed. -/
def State.setPartition (index : ℕ) (partition : SpilledPartition) : State :=
  { state with
    spillState := state.spillState.map fun spill =>
      { spill with partitions := Function.update spill.partitions index (some partition) } }

/-- `record_partition_resident`. -/
def recordPartitionResident (index memUsed : ℕ) : State :=
  match state.partition index with
  | none => state
  | some partition =>
    touchPartitionLru
      { state.setPartition index { partition with residentMem := memUsed } with
        loadedPartitionsMem := state.loadedPartitionsMem - partition.residentMem + memUsed }
      index

/-- Whether `next_evictable` takes a partition. -/
def evictable (protectIdx candidate : ℕ) : Bool :=
  candidate ≠ protectIdx &&
    (state.partition candidate).any fun partition =>
      partition.state = .loaded && partition.chunks ≠ []

/-- One turn of `evict_partitions_to_fit`: the partition that `next_evictable` finds is unloaded. -/
def evictPartition (victim : ℕ) : State :=
  match state.partition victim with
  | none => { state with loadedPartitionsLru := state.loadedPartitionsLru.erase victim }
  | some partition =>
    { state.setPartition victim partition.unload with
      loadedPartitionsLru := state.loadedPartitionsLru.erase victim
      loadedPartitionsMem := state.loadedPartitionsMem - partition.residentMem }

end

/-- The loop of `evict_partitions_to_fit`, which takes a partition off the list in each turn. -/
def evictLoop (incomingMem protectIdx : ℕ) : ℕ → State → State
  | 0, state => state
  | turns + 1, state =>
    if state.memUsed + state.loadedPartitionsMem + incomingMem > config.memBudget then
      match state.loadedPartitionsLru.find? (evictable state protectIdx) with
      | none => state
      | some victim => evictLoop incomingMem protectIdx turns (evictPartition state victim)
    else state

/-- `evict_partitions_to_fit`. -/
def evictPartitionsToFit (state : State) (incomingMem protectIdx : ℕ) : State :=
  evictLoop config incomingMem protectIdx (state.loadedPartitionsLru.length + 1) state

/-- `evict_all_loaded_partitions`. -/
def evictAllLoadedPartitions (state : State) : State :=
  { state with
    spillState := state.spillState.map fun spill =>
      { spill with
        partitions := fun index => (spill.partitions index).map fun partition =>
          if partition.state = .loaded ∧ partition.chunks ≠ [] then partition.unload else partition }
    loadedPartitionsLru := []
    loadedPartitionsMem := 0 }

/-! ## Loading -/

/-- What one turn of `load_spilled_partition` leads to. -/
inductive LoadTurn where
  | again
  | done
  | yield
  deriving DecidableEq

/-- The chunk in the read buffer of a partition is parsed into its buckets. -/
def SpilledPartition.parseChunk (partition : SpilledPartition) :
    Except LimboError SpilledPartition := do
  let parseBuf := partition.partialEntry ++ partition.readBuffer
  let (entries, left) ← parseEntries parseBuf.length parseBuf
  .ok { partition with
    readBuffer := []
    ioState := .none
    buckets := entries.foldl insertBucket partition.buckets
    parsedEntries := partition.parsedEntries + entries.length
    partialEntry := left
    currentChunkIdx := partition.currentChunkIdx + 1 }

/-- A partition becomes resident: others are evicted for it, and its memory is recorded. -/
def becomeResident (state : State) (index residentMem : ℕ) : State :=
  recordPartitionResident (evictPartitionsToFit config state residentMem index) index residentMem

/-- `parse_partition_chunk` and what `load_spilled_partition` does after it. -/
def parsePartitionChunk (state : State) (index : ℕ) (partition : SpilledPartition) :
    Except LimboError (State × LoadTurn) := do
  let partition ← partition.parseChunk
  if partition.currentChunkIdx < partition.chunks.length then
    .ok (state.setPartition index partition, .again)
  else if partition.partialEntry ≠ [] then .error (.corrupt "HashEntry: truncated entry")
  else if partition.parsedEntries ≠ partition.totalNumEntries then
    .error (.assertion "parsed entry count mismatch")
  else
    let residentMem := partitionBucketMem partition.buckets
    let partition := { partition with state := .loaded, residentMem := residentMem }
    .ok (becomeResident config (state.setPartition index partition) index residentMem, .done)

/-- The read of a chunk is submitted. -/
def submitRead (state : State) (index : ℕ) (partition : SpilledPartition) : State × LoadTurn :=
  let reading := { partition with ioState := .waitingForRead, state := .loading }
  let submitted := { state with ioCount := state.ioCount + 1 }
  if env state.ioCount then
    let file := (state.spillState.map SpillState.file).getD []
    (submitted.setPartition index (reading.completeRead file), .again)
  else (submitted.setPartition index reading, .yield)

/-- The turn for a partition of which no chunk is being read. -/
def loadNextChunk (state : State) (index : ℕ) (partition : SpilledPartition) : State × LoadTurn :=
  match partition.chunks[partition.currentChunkIdx]? with
  | none =>
    (becomeResident config (state.setPartition index { partition with state := .loaded }) index 0,
      .done)
  | some chunk =>
    let partition := partition.beginLoad
    if chunk.sizeBytes = 0 then
      let partition := { partition with currentChunkIdx := partition.currentChunkIdx + 1 }
      if partition.currentChunkIdx < partition.chunks.length then
        (state.setPartition index partition, .again)
      else
        (becomeResident config (state.setPartition index { partition with state := .loaded })
          index 0, .done)
    else submitRead env state index partition

/-- One turn of the loop of `load_spilled_partition`. -/
def loadTurn (state : State) (index : ℕ) : Except LimboError (State × LoadTurn) :=
  match state.partition index with
  | none => .ok (state, .done)
  | some partition =>
    if partition.isLoaded then .ok (touchPartitionLru state index, .done)
    else
      match partition.ioState with
      | .waitingForRead => .ok (state, .yield)
      | .readComplete => parsePartitionChunk config state index partition
      | _ => .ok (loadNextChunk config env state index partition)

/-- The loop of `load_spilled_partition`; the first argument bounds it. -/
def loadLoop (index : ℕ) : ℕ → State → Except LimboError (State × IOResult Unit)
  | 0, state => .ok (state, .io)
  | turns + 1, state => do
    match ← loadTurn config env state index with
    | (state, .again) => loadLoop index turns state
    | (state, .done) => .ok (state, .done ())
    | (state, .yield) => .ok (state, .io)

/-- `load_spilled_partition`: no chunk takes more than two turns. -/
def loadSpilledPartition (state : State) (index : ℕ) : Except LimboError (State × IOResult Unit) :=
  let chunkCount := ((state.partition index).map (·.chunks.length)).getD 0
  loadLoop config env index (2 * chunkCount + 1) state

end Turso.HashTable
