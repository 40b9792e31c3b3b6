import Turso.Vdbe.HashTable.Model

/-!
# Operations of the hash table

The calls on a table (`core/vdbe/hash_table.rs`): `insert_distinct` for DISTINCT, `insert_pending` and
`finalize_build` for the build side of a join, `clear` and `close`.  A call that waits for IO returns
`IOResult.io` and is made again when the IO has ended.
-/

namespace Turso.HashTable

open Function PackedDistinctKeyPlace

variable (config : Config) (env : Environment)

/-! ## DISTINCT -/

/-- A key without payload, as DISTINCT stores it. -/
def Config.entry (key : List Value) : HashEntry :=
  ⟨config.hash key, key, 0, []⟩

/-- Whether an entry of a bucket or a buffer has the key. -/
def Config.hasKey (entries : List HashEntry) (key : List Value) : Bool :=
  entries.any fun entry => entry.hash = config.hash key && config.equal entry.keyValues key

/-- The comparison at the end of `spilled_key_equals`. -/
def compareSpilledKey (bytes : Bytes) (len : ℕ) (key : List Value) : Except LimboError Bool :=
  if bytes.length ≠ len then .error (.corrupt "HashEntry: truncated entry")
  else do
    let (entry, consumed) ← HashEntry.deserialize bytes
    if consumed ≠ len then .error (.assertion "expected to consume entire entry")
    else .ok (config.equal entry.keyValues key)

variable (state : State) (spill : SpillState)

/-- The read of `spilled_key_equals` is submitted. -/
def submitKeyRead (offset len : ℕ) (key : List Value) : Except LimboError (State × IOResult Bool) :=
  let submitted := { state with ioCount := state.ioCount + 1 }
  if env state.ioCount then do
    let equal ← compareSpilledKey config (pread spill.file offset len) len key
    .ok ({ submitted with spillState := some { spill with distinctKeyRead := none } }, .done equal)
  else
    let read := ⟨offset, len, .waitingForRead, []⟩
    .ok ({ submitted with spillState := some { spill with distinctKeyRead := some read } }, .io)

/-- `spilled_key_equals`. -/
def spilledKeyEquals (offset len : ℕ) (key : List Value) :
    Except LimboError (State × IOResult Bool) :=
  match spill.distinctKeyRead with
  | none => submitKeyRead config env state spill offset len key
  | some read =>
    if read.offset ≠ offset then submitKeyRead config env state spill offset len key
    else if read.ioState = .readComplete then do
      let equal ← compareSpilledKey config read.bytes len key
      .ok ({ state with spillState := some { spill with distinctKeyRead := none } }, .done equal)
    else .ok (state, .io)

variable (index : ℕ)

/-- `spilled_partition_has_key` once the partition is loaded. -/
def loadedPartitionHasKey (key : List Value) : Bool :=
  match state.partition index with
  | none => false
  | some partition =>
    if partition.buckets = [] then false
    else config.hasKey
      (partition.buckets.getD (bucketIndex partition.buckets.length (config.hash key)) []) key

/-- `spilled_partition_has_key`. -/
def spilledPartitionHasKey (key : List Value) : Except LimboError (State × IOResult Bool) :=
  if (state.partition index).any (·.isLoaded) then
    .ok (state, .done (loadedPartitionHasKey config state index key))
  else do
    match ← loadSpilledPartition config env state index with
    | (state, .done ()) => .ok (state, .done (loadedPartitionHasKey config state index key))
    | (state, .io) => .ok (state, .io)

/-- Whether a key is on disk, after the place of its hash. -/
def hasSpilledDup (key : List Value) (place : Option ℕ) :
    Except LimboError (State × IOResult Bool) :=
  match place.map get with
  | none | some .inBuffer => .ok (state, .done false)
  | some (.onDisk offset len) => spilledKeyEquals config env state spill offset len key
  | some .onDiskWithoutOffset | some .sharedByDifferentKeys =>
    spilledPartitionHasKey config env state (spill.partitioning.index (config.hash key)) key

/-- The key goes to the buffer of its partition. -/
def bufferDistinctKey (key : List Value) (place : Option ℕ) : State :=
  let hash := config.hash key
  let index := spill.partitioning.index hash
  let newPlace : DistinctKeyPlace := match place with
    | none => .inBuffer
    | some _ => .sharedByDifferentKeys
  { state with
    spillState := some { spill with
      partitionBuffers := update spill.partitionBuffers index
        ((spill.partitionBuffers index).insert (config.entry key))
      distinctKeyPlaces := update spill.distinctKeyPlaces index
        (update (spill.distinctKeyPlaces index) hash
          (some (new newPlace))) }
    numEntries := state.numEntries + 1
    memUsed := state.memUsed + sizeFromValues key [] }

/-- `insert_distinct` after the key was not found: room is made and the key is buffered. -/
def insertNewDistinct (key : List Value) (place : Option ℕ) :
    Except LimboError (State × IOResult Bool) :=
  match state.spillState with
  | none => .error (.assertion "spill state exists")
  | some spill => do
    match ← spillPartitionsForEntry config env state spill (sizeFromValues key []) with
    | (state, some false) => .ok (state, .io)
    | (state, _) =>
      match state.spillState with
      | none => .error (.assertion "spill state exists")
      | some spill => .ok (bufferDistinctKey config state spill key place, .done true)

/-- `insert_distinct` of a table that has spilled. -/
def insertDistinctSpilled (key : List Value) : Except LimboError (State × IOResult Bool) :=
  let index := spill.partitioning.index (config.hash key)
  if config.hasKey (spill.partitionBuffers index).entries key then .ok (state, .done false)
  else do
    let place := spill.distinctKeyPlaces index (config.hash key)
    match ← hasSpilledDup config env state spill key place with
    | (state, .io) => .ok (state, .io)
    | (state, .done true) => .ok (state, .done false)
    | (state, .done false) => insertNewDistinct config env state key place

/-- `redistribute_to_partitions`. -/
def redistributeToPartitions (buckets : Buckets) : SpillState :=
  buckets.flatten.foldl (fun spill entry =>
    let index := spill.partitioning.index entry.hash
    { spill with
      partitionBuffers := update spill.partitionBuffers index
        ((spill.partitionBuffers index).insert entry) }) spill

/-- The places of the keys of one buffer. -/
def recordPlaces (places : Places) (entries : List HashEntry) : Places :=
  entries.foldl (fun places entry =>
    let place : DistinctKeyPlace := match places entry.hash with
      | none => .inBuffer
      | some _ => .sharedByDifferentKeys
    update places entry.hash (some (new place))) places

/-- `record_distinct_key_places`. -/
def recordDistinctKeyPlaces : SpillState :=
  { spill with
    distinctKeyPlaces := fun index =>
      recordPlaces (spill.distinctKeyPlaces index) (spill.partitionBuffers index).entries }

/-- The table begins to spill. -/
def startSpill : State :=
  { state with buckets := [], spillState := some spill, phase := .spilled }

variable (entry : HashEntry)

/-- An entry goes to the bucket of its hash. -/
def bucketEntry : State :=
  let bucketIdx := bucketIndex state.buckets.length entry.hash
  { state with
    nonEmptyBuckets :=
      if state.buckets.getD bucketIdx [] = [] then state.nonEmptyBuckets ++ [bucketIdx]
      else state.nonEmptyBuckets
    buckets := insertBucket state.buckets entry
    numEntries := state.numEntries + 1
    memUsed := state.memUsed + entry.sizeBytes }

/-- `insert_distinct`. -/
def insertDistinct (key : List Value) : Except LimboError (State × IOResult Bool) :=
  if !state.phase.insertable then
    .error (.assertion "Cannot insert_distinct into hash table in unexpected state")
  else
    match state.spillState with
    | some spill => insertDistinctSpilled config env state spill key
    | none =>
      let bucketIdx := bucketIndex state.buckets.length (config.hash key)
      if config.hasKey (state.buckets.getD bucketIdx []) key then .ok (state, .done false)
      else if state.memUsed + sizeFromValues key [] > config.memBudget then
        let partitioning := choosePartitioning config state (sizeFromValues key [])
        let spill := recordDistinctKeyPlaces
          (redistributeToPartitions (.new partitioning) state.buckets)
        insertDistinctSpilled config env (startSpill state spill) spill key
      else .ok (bucketEntry state (config.entry key), .done true)

/-- `clear`. -/
def clear : State :=
  let reset := { state with
    numEntries := 0
    phase := .building
    nonEmptyBuckets := []
    loadedPartitionsLru := []
    loadedPartitionsMem := 0 }
  match state.spillState with
  | some _ =>
    { reset with
      spillState := none
      buckets := List.replicate (max config.initialBuckets 1) []
      memUsed := 0 }
  | none =>
    if state.numEntries = 0 then reset
    else
      { reset with
        buckets := state.buckets.mapIdx fun index bucket =>
          if index ∈ state.nonEmptyBuckets then [] else bucket
        memUsed := 0 }

/-- `close`. -/
def close : State :=
  { state with
    phase := .closed
    buckets := []
    numEntries := 0
    memUsed := 0
    loadedPartitionsLru := []
    loadedPartitionsMem := 0
    spillState := none }

/-! ## The build side of a join -/

/-- `PendingHashInsert`. -/
structure PendingHashInsert where
  keyValues : List Value
  rowid : Int64
  payloadValues : List Value

/-- The entry goes to the buffer of its partition, or to its bucket. -/
def insertEntry : State :=
  match state.spillState with
  | some spill =>
    let index := spill.partitioning.index entry.hash
    { state with
      spillState := some { spill with
        partitionBuffers := update spill.partitionBuffers index
          ((spill.partitionBuffers index).insert entry) }
      numEntries := state.numEntries + 1
      memUsed := state.memUsed + entry.sizeBytes }
  | none => bucketEntry state entry

/-- The spill state of a table that exceeds its budget for the first time. -/
def ensureSpilled (entrySize : ℕ) : State × SpillState :=
  match state.spillState with
  | some spill => (state, spill)
  | none =>
    let spill := redistributeToPartitions (.new (choosePartitioning config state entrySize))
      state.buckets
    (startSpill state spill, spill)

/-- `insert_pending`. -/
def insertPending (pending : PendingHashInsert) : Except LimboError (State × IOResult Unit) :=
  if !state.phase.insertable then
    .error (.assertion "Cannot insert into hash table in unexpected state")
  else if .null ∈ pending.keyValues ∧ !config.trackMatched then .ok (state, .done ())
  else
    let entry : HashEntry :=
      ⟨config.hash pending.keyValues, pending.keyValues, pending.rowid, pending.payloadValues⟩
    if state.memUsed + entry.sizeBytes > config.memBudget then do
      let (state, spill) := ensureSpilled config state entry.sizeBytes
      match ← spillPartitionsForEntry config env state spill entry.sizeBytes with
      | (state, some false) => .ok (state, .io)
      | (state, _) => .ok (insertEntry state entry, .done ())
    else .ok (insertEntry state entry, .done ())

/-- `materialize_partition_in_memory`. -/
def materializePartitionInMemory : SpillState :=
  let entries := (spill.partitionBuffers index).entries
  if (spill.partitions index).isSome ∨ entries = [] then spill
  else
    let buckets := List.replicate (max (nextPowerOfTwo entries.length) 64) []
    { spill with
      partitionBuffers := update spill.partitionBuffers index .empty
      partitions := update spill.partitions index
        (some { SpilledPartition.new with
          state := .inMemory, buckets := entries.foldl insertBucket buckets }) }

/-- The loop of `finalize_build` over the partitions that are on disk already. -/
def spillTargets : List ℕ → State → Except LimboError (State × IOResult Unit)
  | [], state => .ok (state, .done ())
  | index :: targets, state =>
    match state.spillState with
    | none => .error (.assertion "spill state must exist")
    | some spill => do
      match ← spillPartition env state spill index with
      | (state, some false) => .ok (state, .io)
      | (state, _) => spillTargets targets state

/-- `finalize_build`. -/
def finalizeBuild : Except LimboError (State × IOResult Unit) :=
  if !state.phase.insertable then .error (.assertion "Cannot finalize build in unexpected state")
  else
    match state.spillState with
    | none => .ok ({ state with phase := .probing }, .done ())
    | some spill =>
      let indices := List.range spill.partitioning.count
      if indices.any fun index =>
          (spill.partitions index).any fun partition => partition.ioState = .waitingForWrite then
        .ok (state, .io)
      else do
        let targets := indices.filter fun index => (spill.partitionBuffers index).entries ≠ []
        match ← spillTargets env
            (targets.filter fun index => (spill.partitions index).isSome) state with
        | (state, .io) => .ok (state, .io)
        | (state, .done ()) =>
          let state := { state with
            spillState := state.spillState.map fun spilled =>
              (targets.filter fun index => !(spill.partitions index).isSome).foldl
                materializePartitionInMemory spilled }
          .ok ({ state with phase := .probing }, .done ())

/-- `begin_probe_pass`. -/
def beginProbePass : Except LimboError State :=
  if state.phase = .probing ∨ state.phase = .graceProcessing then
    .ok { evictAllLoadedPartitions state with phase := .probing }
  else .error (.assertion "begin_probe_pass called before the build was finalized")

end Turso.HashTable
