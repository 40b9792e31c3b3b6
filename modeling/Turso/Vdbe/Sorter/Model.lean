import Turso.Foundation.ByteBuffer
import Turso.Storage.Varint
import Turso.Vdbe.Sorter.Comparators
import Mathlib.Data.List.Sort

/-!
# The sorter

`Sorter` (`core/vdbe/sorter.rs`): records are collected in memory; when they exceed the buffer they are
sorted and written to a temporary file as a chunk.  If there are chunks, `sort` and `next` read them
back through a buffer each and merge them with a heap that holds at most one record of every chunk.

`insert`, `sort` and `next` can yield for IO and are then called again, so their progress is part of
the state.  When a read or a write ends, and how many bytes a read returns, is up to an `Environment`;
IO does not fail.  A record is its payload; how its values are decoded is a parameter.
-/

namespace Turso.Sorter

/-! ## Parameters -/

/-- The settings of a sorter, the collations of locales, and `ValueIterator`: the values of a record,
each of which may fail to decode. -/
structure Config where
  keyLen : ℕ
  keyInfo : List KeyInfo
  maxBufferSize : ℕ
  minChunkReadBufferSize : ℕ
  locales : LocaleCollations
  columns : Bytes → Except LimboError (List (Except LimboError ValueRef))

/-- How IO goes: the number of bytes that a read of a chunk at a position of the chunk returns, whether
it has ended when it is first looked at, and the same for the write of a chunk. -/
structure Environment where
  bytesRead : ℕ → ℕ → ℕ
  readAtOnce : ℕ → ℕ → Bool
  writeAtOnce : ℕ → Bool

/-! ## Sortable records -/

/-- The first values of a record. -/
def keyValues : ℕ → List (Except LimboError ValueRef) → Except LimboError (List ValueRef)
  | 0, _ => .ok []
  | _ + 1, [] => .error (.corrupt "Not enough columns in record")
  | _ + 1, .error error :: _ => .error error
  | count + 1, .ok value :: rest => (keyValues count rest).map (value :: ·)

theorem length_keyValues {count : ℕ} {columns : List (Except LimboError ValueRef)}
    {values : List ValueRef} (h : keyValues count columns = .ok values) : values.length = count := by
  induction count generalizing columns values with
  | zero =>
    cases h
    rfl
  | succ count ih =>
    match columns, h with
    | .ok value :: rest, h =>
      obtain ⟨tail, hrest, h⟩ := bind_eq_ok.1 h
      cases h
      rw [List.length_cons, ih hrest]

variable (config : Config)

abbrev Record := SortableRecord config.keyLen

/-- A record whose key is decoded. -/
def decodeKey (payload : Bytes) (columns : List (Except LimboError ValueRef)) :
    Except LimboError (Record config) :=
  match h : keyValues config.keyLen columns with
  | .ok values => .ok ⟨payload, values, length_keyValues h⟩
  | .error error => .error error

/-- `ArenaSortableRecord::new`. -/
def arenaSortableRecord (payload : Bytes) : Except LimboError (Record config) := do
  let columns ← config.columns payload
  decodeKey config payload columns

/-- `BoxedSortableRecord`: if the key cannot be decoded, the error is kept. -/
structure BoxedSortableRecord where
  payload : Bytes
  key : Except LimboError (Record config)

/-- `BoxedSortableRecord::new`. -/
def boxedSortableRecord (payload : Bytes) : Except LimboError (BoxedSortableRecord config) := do
  let columns ← config.columns payload
  pure ⟨payload, decodeKey config payload columns⟩

variable {config}

def Record.cmp (first second : Record config) : Ordering :=
  Sorter.cmp config.locales [] config.keyInfo first.key second.key

def BoxedSortableRecord.cmp (first second : BoxedSortableRecord config) : Ordering :=
  match first.key, second.key with
  | .ok first, .ok second => Record.cmp first second
  | _, _ => .eq

/-- `sort_by`, which is stable. -/
def sortRecords (records : List (Record config)) : List (Record config) :=
  records.insertionSort fun first second => (Record.cmp first second).isLE

/-! ## Sorted chunks -/

/-- `SortedChunkIOState`, without failed writes. -/
inductive ChunkIOState where
  | none
  | waitingForRead
  | readComplete
  | readEOF
  | waitingForWrite
  | writeComplete
  deriving DecidableEq, Repr

inductive NextState where
  | start
  | finish
  deriving DecidableEq, Repr

/-- `SortedChunk`.  Of the buffer the valid part and the capacity are kept; the parsed records are in
the order in which they are returned. -/
structure SortedChunk where
  startOffset : ℕ
  chunkSize : ℕ
  capacity : ℕ
  buffer : Bytes
  records : List Bytes
  ioState : ChunkIOState
  totalBytesRead : ℕ
  nextState : NextState
  deriving DecidableEq, Repr

inductive ChunkNextResult where
  | done (record : Option Bytes)
  | io
  deriving DecidableEq, Repr

/-- A record in a chunk: its length and its payload. -/
def encodeRecord (payload : Bytes) : Bytes :=
  writeVarint payload.length ++ payload

def encodeRecords (payloads : List Bytes) : Bytes :=
  payloads.flatMap encodeRecord

/-- The loop of `SortedChunk::next` over the buffer: the records that are complete, and what is left.
The first argument says that all of the chunk has been read, the second bounds the loop. -/
def parseRecords (eof : Bool) : ℕ → Bytes → Except LimboError (List Bytes × Bytes)
  | 0, buffer => .ok ([], buffer)
  | fuel + 1, buffer =>
    if buffer = [] then .ok ([], [])
    else
      match readVarint buffer with
      | .error error => if eof then .error error else .ok ([], buffer)
      | .ok (recordSize, bytesRead) =>
        if buffer.length - bytesRead < recordSize then
          if eof then .error (.corrupt "Incomplete record") else .ok ([], buffer)
        else do
          let (records, left) ← parseRecords eof fuel (buffer.drop (bytesRead + recordSize))
          .ok ((buffer.drop bytesRead).take recordSize :: records, left)

namespace SortedChunk

variable (chunk : SortedChunk)

/-- `SortedChunk::new`. -/
def new (startOffset bufferSize : ℕ) : SortedChunk :=
  ⟨startOffset, 0, bufferSize, [], [], .none, 0, .start⟩

/-- `grow_buffer`. -/
def growBuffer (size : ℕ) : Except LimboError SortedChunk :=
  if chunk.totalBytesRead ≠ 0 then .error (.assertion "total_bytes_read")
  else .ok { chunk with capacity := max chunk.capacity (min size chunk.chunkSize) }

def inFlight : Bool :=
  chunk.ioState = .waitingForRead ∨ chunk.ioState = .waitingForWrite

/-- The number of bytes that a read asks for. -/
def readBufferSize : ℕ :=
  min (chunk.capacity - chunk.buffer.length) (chunk.chunkSize - chunk.totalBytesRead)

variable (env : Environment) (index : ℕ) (file : ByteBuffer)

/-- The number of bytes that a read returns: at least one and at most as many as it asks for. -/
def bytesReturned : ℕ :=
  max 1 (min (env.bytesRead index chunk.totalBytesRead) chunk.readBufferSize)

/-- `read_complete`. -/
def readComplete : SortedChunk :=
  let bytesRead := chunk.bytesReturned env index
  { chunk with
    ioState := .readComplete
    buffer := chunk.buffer ++ file.slice (chunk.startOffset + chunk.totalBytesRead) bytesRead
    totalBytesRead := chunk.totalBytesRead + bytesRead }

/-- `SortedChunk::read`. -/
def read : SortedChunk :=
  if chunk.readBufferSize = 0 then
    if chunk.chunkSize - chunk.totalBytesRead = 0 then { chunk with ioState := .readEOF } else chunk
  else
    let waiting := { chunk with ioState := .waitingForRead }
    if env.readAtOnce index chunk.totalBytesRead then waiting.readComplete env index file else waiting

/-- The records in the buffer are parsed, unless there are some left. -/
def parse : Except LimboError SortedChunk :=
  if chunk.records = [] then do
    let (records, left) ← parseRecords (chunk.ioState = .readEOF) chunk.buffer.length chunk.buffer
    .ok { chunk with records := records, buffer := left }
  else .ok chunk

/-- The state `NextState::Finish` of `SortedChunk::next`. -/
def finish : SortedChunk × ChunkNextResult :=
  ({ chunk with nextState := .start, records := chunk.records.tail }, .done chunk.records.head?)

/-- A chunk whose prefetch is in flight yields. -/
def finishOrWait : SortedChunk × ChunkNextResult :=
  if chunk.ioState = .waitingForRead then (chunk, .io) else chunk.finish

/-- `SortedChunk::next`. -/
def next : Except LimboError (SortedChunk × ChunkNextResult) :=
  match chunk.nextState with
  | .start =>
    if chunk.records = [] ∧ chunk.buffer = [] then .ok (chunk, .done none)
    else do
      let parsed ← chunk.parse
      let started := { parsed with nextState := .finish }
      if started.records.length = 1 ∧ started.ioState ≠ .readEOF then
        .ok (started.read env index file).finishOrWait
      else .ok started.finish
  | .finish => .ok chunk.finish

/-- `SortedChunk::write`, with the bytes that go to the file. -/
def write (records : List (Record config)) (chunkSize : ℕ) : SortedChunk × Bytes :=
  ({ chunk with
      chunkSize := chunkSize
      ioState := if env.writeAtOnce index then .writeComplete else .waitingForWrite },
    encodeRecords (records.map SortableRecord.payload))

/-- A read or a write in flight ends. -/
def complete : SortedChunk :=
  match chunk.ioState with
  | .waitingForRead => chunk.readComplete env index file
  | .waitingForWrite => { chunk with ioState := .writeComplete }
  | _ => chunk

end SortedChunk

/-! ## The sorter -/

inductive SortState where
  | start
  | flush
  | initHeap
  | next
  deriving DecidableEq, Repr

inductive InsertState where
  | start
  | insert
  deriving DecidableEq, Repr

inductive InitChunkHeapState where
  | start
  | pushChunk (chunkIdx : ℕ)
  deriving DecidableEq, Repr

/-- `Sorter`.  The records in memory are in the order of their insertion, and after `sort` in that in
which they are returned. -/
structure State (config : Config) where
  records : List (Record config)
  current : Option Bytes
  chunks : List SortedChunk
  chunkHeap : List (BoxedSortableRecord config × ℕ)
  currentBufferSize : ℕ
  maxPayloadSizeInBuffer : ℕ
  file : ByteBuffer
  nextChunkOffset : ℕ
  sortState : SortState
  insertState : InsertState
  initChunkHeapState : InitChunkHeapState
  pendingCompletion : Option ℕ

/-- The order of the heap: the greatest entry is that with the smallest record, and of these the one
with the greatest index. -/
def heapCmp (first second : BoxedSortableRecord config × ℕ) : Ordering :=
  (second.1.cmp first.1).then (compare first.2 second.2)

/-- `BinaryHeap::pop`: a greatest entry. -/
def heapPop : List (BoxedSortableRecord config × ℕ) →
    Option ((BoxedSortableRecord config × ℕ) × List (BoxedSortableRecord config × ℕ))
  | [] => none
  | entry :: rest =>
    match heapPop rest with
    | none => some (entry, [])
    | some (best, others) =>
      if heapCmp entry best = .lt then some (best, entry :: others)
      else some (entry, best :: others)

namespace State

/-- `Sorter::new`. -/
def new (config : Config) : State config where
  records := []
  current := none
  chunks := []
  chunkHeap := []
  currentBufferSize := 0
  maxPayloadSizeInBuffer := 0
  file := .zeros
  nextChunkOffset := 0
  sortState := .start
  insertState := .start
  initChunkHeapState := .start
  pendingCompletion := none

variable (env : Environment) (sorter : State config) (index : ℕ)

def chunkInFlight : Bool :=
  sorter.chunks[index]?.any SortedChunk.inFlight

/-- The total length of the records with their lengths. -/
def chunkSize (records : List (Record config)) : ℕ :=
  (records.map fun record => varintLen record.payload.length + record.payload.length).sum

/-- `Sorter::flush`; the second component is the index of the chunk that is written. -/
def flush : State config × Option ℕ :=
  if sorter.records = [] then (sorter, none)
  else
    let records := sortRecords sorter.records
    let chunkBufferSize := max config.minChunkReadBufferSize (sorter.maxPayloadSizeInBuffer + 9)
    let index := sorter.chunks.length
    let (chunk, bytes) := (SortedChunk.new sorter.nextChunkOffset chunkBufferSize).write env index
      records (chunkSize records)
    ({ sorter with
      records := []
      chunks := sorter.chunks ++ [chunk]
      file := sorter.file.write sorter.nextChunkOffset bytes
      currentBufferSize := 0
      maxPayloadSizeInBuffer := 0
      nextChunkOffset := sorter.nextChunkOffset + chunkSize records }, some index)

/-- The state `InsertState::Insert` of `Sorter::insert`. -/
def insertRecord (payload : Bytes) : Except LimboError (State config) := do
  let record ← arenaSortableRecord config payload
  pure { sorter with
    records := sorter.records ++ [record]
    currentBufferSize := sorter.currentBufferSize + payload.length
    maxPayloadSizeInBuffer := max sorter.maxPayloadSizeInBuffer payload.length
    insertState := .start }

/-- `Sorter::insert`. -/
def insert (payload : Bytes) : Except LimboError (State config × IOResult Unit) :=
  match sorter.insertState with
  | .insert => (sorter.insertRecord payload).map fun inserted => (inserted, .done ())
  | .start =>
    let started := { sorter with insertState := .insert }
    if sorter.currentBufferSize + payload.length > config.maxBufferSize then
      let (flushed, written) := started.flush env
      if written.any flushed.chunkInFlight then .ok (flushed, .io)
      else (flushed.insertRecord payload).map fun inserted => (inserted, .done ())
    else (started.insertRecord payload).map fun inserted => (inserted, .done ())

/-- What a chunk returns goes to the heap; the second component says that the chunk needs a read
first. -/
def pushResult (chunk : SortedChunk) : ChunkNextResult → Except LimboError (State config × Bool)
  | .done (some payload) => do
    let record ← boxedSortableRecord config payload
    pure ({ sorter with
      chunks := sorter.chunks.set index chunk
      chunkHeap := (record, index) :: sorter.chunkHeap }, false)
  | .done none => pure ({ sorter with chunks := sorter.chunks.set index chunk }, false)
  | .io => pure ({ sorter with chunks := sorter.chunks.set index chunk }, true)

/-- `Sorter::push_to_chunk_heap`. -/
def pushToChunkHeap : Except LimboError (State config × Bool) :=
  match sorter.chunks[index]? with
  | none => .error (.assertion "index out of bounds")
  | some chunk => do
    let (chunk, result) ← chunk.next env index sorter.file
    sorter.pushResult index chunk result

/-- The loop of `init_chunk_heap` from a chunk on. -/
def pushChunks : ℕ → ℕ → State config → Except LimboError (State config × IOResult Unit)
  | 0, _, sorter => .ok ({ sorter with initChunkHeapState := .start }, .done ())
  | left + 1, index, sorter => do
    let (pushed, io) ← sorter.pushToChunkHeap env index
    if io then .ok (pushed, .io)
    else pushChunks left (index + 1) { pushed with initChunkHeapState := .pushChunk (index + 1) }

/-- `Sorter::init_chunk_heap`. -/
def initChunkHeap : Except LimboError (State config × IOResult Unit) :=
  match sorter.initChunkHeapState with
  | .start =>
    if sorter.records ≠ [] then .error (.assertion "self.records.is_empty()")
    else do
      let grown ← sorter.chunks.mapM
        (SortedChunk.growBuffer · (config.maxBufferSize / sorter.chunks.length))
      pure ({ sorter with
        chunks := grown.mapIdx fun index chunk => chunk.read env index sorter.file
        initChunkHeapState := .pushChunk 0 }, .io)
  | .pushChunk index =>
    if sorter.chunks.any (·.ioState = .waitingForRead) then
      .error (.assertion "chunks should have been read")
    else pushChunks env (sorter.chunks.length - index) index sorter

/-- The end of `next_from_chunk_heap`, when no read is pending. -/
def popFromChunkHeap : Except LimboError (State config × Option (BoxedSortableRecord config)) :=
  match heapPop sorter.chunkHeap with
  | none => .ok (sorter, none)
  | some ((record, index), rest) => do
    let (pushed, io) ← pushToChunkHeap env { sorter with chunkHeap := rest } index
    pure (if io then { pushed with pendingCompletion := some index } else pushed, some record)

/-- `Sorter::next_from_chunk_heap`.  A read that `push_to_chunk_heap` returns has not ended, so that
the loop yields when it looks at it again. -/
def nextFromChunkHeap :
    Except LimboError (State config × IOResult (Option (BoxedSortableRecord config))) :=
  match sorter.pendingCompletion with
  | none => (sorter.popFromChunkHeap env).map fun (popped, record) => (popped, .done record)
  | some index =>
    if sorter.chunkInFlight index then .ok (sorter, .io)
    else do
      let (pushed, io) ← pushToChunkHeap env { sorter with pendingCompletion := none } index
      if io then pure ({ pushed with pendingCompletion := some index }, .io)
      else (pushed.popFromChunkHeap env).map fun (popped, record) => (popped, .done record)

/-- `Sorter::next`. -/
def next : Except LimboError (State config × IOResult Unit) :=
  if sorter.chunks = [] then
    match sorter.records with
    | record :: rest => .ok ({ sorter with current := some record.payload, records := rest }, .done ())
    | [] => .ok ({ sorter with current := none }, .done ())
  else do
    let (served, result) ← sorter.nextFromChunkHeap env
    match result with
    | .io => pure (served, .io)
    | .done none => pure ({ served with current := none }, .done ())
    | .done (some record) =>
      match record.key with
      | .error error => .error error
      | .ok _ => pure ({ served with current := some record.payload }, .done ())

/-- The state `SortState::Next` of `Sorter::sort`. -/
def sortNext : Except LimboError (State config × IOResult Unit) := do
  let (served, result) ← next env { sorter with sortState := .next }
  match result with
  | .io => pure (served, .io)
  | .done () => pure ({ served with sortState := .start }, .done ())

/-- The state `SortState::InitHeap` of `Sorter::sort`. -/
def sortInitHeap : Except LimboError (State config × IOResult Unit) :=
  if sorter.chunks.any (·.ioState = .waitingForWrite) then
    .error (.assertion "chunks should been written")
  else do
    let (initialized, result) ← sorter.initChunkHeap env
    match result with
    | .io => pure (initialized, .io)
    | .done () => initialized.sortNext env

/-- The state `SortState::Flush` of `Sorter::sort`. -/
def sortFlush : Except LimboError (State config × IOResult Unit) :=
  let (flushed, written) := flush env { sorter with sortState := .initHeap }
  if written.isSome then .ok (flushed, .io) else flushed.sortInitHeap env

/-- `Sorter::sort`. -/
def sort : Except LimboError (State config × IOResult Unit) :=
  match sorter.sortState with
  | .start =>
    if sorter.chunks = [] then sortNext env { sorter with records := sortRecords sorter.records }
    else sorter.sortFlush env
  | .flush => sorter.sortFlush env
  | .initHeap => sorter.sortInitHeap env
  | .next => sorter.sortNext env

end State

/-! ## A caller -/

inductive Phase where
  | filling
  | reading
  | finished
  deriving DecidableEq, Repr

/-- A caller that inserts records, sorts them, and takes one record after the other. -/
structure Query (config : Config) where
  sorter : State config
  input : List Bytes
  phase : Phase
  waiting : Bool
  output : List Bytes

namespace Query

def start (config : Config) (input : List Bytes) : Query config :=
  ⟨.new config, input, .filling, false, []⟩

variable (env : Environment) (query : Query config)

/-- The record that the sorter has moved to. -/
def take (sorter : State config) : Query config :=
  match sorter.current with
  | some payload => { query with
      sorter := sorter, phase := .reading, waiting := false, output := query.output ++ [payload] }
  | none => { query with sorter := sorter, phase := .finished, waiting := false }

/-- The caller makes its next call, or repeats the one that has yielded. -/
def call : Except LimboError (Query config) :=
  match query.phase, query.input with
  | .filling, payload :: rest => do
    let (sorter, result) ← query.sorter.insert env payload
    match result with
    | .io => pure { query with sorter := sorter, waiting := true }
    | .done () => pure { query with sorter := sorter, input := rest, waiting := false }
  | .filling, [] => do
    let (sorter, result) ← query.sorter.sort env
    match result with
    | .io => pure { query with sorter := sorter, waiting := true }
    | .done () => pure (query.take sorter)
  | .reading, _ => do
    let (sorter, result) ← query.sorter.next env
    match result with
    | .io => pure { query with sorter := sorter, waiting := true }
    | .done () => pure (query.take sorter)
  | .finished, _ => pure query

/-- A read or a write of a chunk ends. -/
def complete (index : ℕ) : Query config :=
  { query with sorter := { query.sorter with
      chunks := query.sorter.chunks.modify index fun chunk =>
        chunk.complete env index query.sorter.file } }

end Query

/-- The caller calls, or IO of a chunk ends. -/
inductive Event where
  | call
  | complete (index : ℕ)
  deriving DecidableEq, Repr

/-- A caller that was yielded to calls again when the IO has ended, and a caller that is finished does
not call. -/
def Query.Enabled (query : Query config) : Event → Prop
  | .call => query.phase ≠ .finished ∧
      (query.waiting = true → ∀ chunk ∈ query.sorter.chunks, chunk.inFlight = false)
  | .complete index => query.sorter.chunkInFlight index = true

/-- One step of the caller and its environment. -/
def Query.Step (env : Environment) (query : Query config) (event : Event) (next : Query config) :
    Prop :=
  query.Enabled event ∧
    match event with
    | .call => query.call env = .ok next
    | .complete index => query.complete env index = next

end Turso.Sorter
