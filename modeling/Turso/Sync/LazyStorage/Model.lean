import Mathlib.Tactic.Common

/-!
# Storage of a partially synced database

`LazyDatabaseStorage` (`sync/engine/src/database_sync_lazy_storage.rs`) keeps a database file with
holes.  A read of a missing page starts a coroutine that loads the page from the server, at a fixed
revision, with its neighbours in the segment, and may then prefetch the pages it points to.  Writes
come from checkpoints and go to the file at once.

Pages are numbered from zero.  Files do synchronous IO, as the source asserts, so that between two
resumptions of coroutines a call is one step.  A step of the model that a panic of the source ends is
`none`.
-/

namespace Turso.Sync

open Function

abbrev PageNo := ℕ

variable {Bytes : Type}

/-! ## Page states -/

inductive PageOperation where
  | load
  | write
  deriving DecidableEq, Repr

inductive PageLoadAction where
  | load
  | wait
  deriving DecidableEq, Repr

/-- Why an operation on a page fails: another operation has the page, the load was given up, or the
server did not answer. -/
inductive SyncError where
  | unableToGetWriteLock (page : PageNo)
  | unableToGetLoadLock (page : PageNo)
  | unableToLoad
  | remote
  deriving DecidableEq, Repr

structure PageInfo (Bytes : Type) where
  operation : PageOperation
  loadResult : Option (Except SyncError Bytes)
  loadWaits : ℕ

/-- `PageStates`: the pages with an active operation. -/
abbrev PageStates (Bytes : Type) := PageNo → Option (PageInfo Bytes)

namespace PageStates

variable (page : PageNo) (states : PageStates Bytes)

def writeStart : Except SyncError (PageStates Bytes) :=
  if (states page).isSome then .error (.unableToGetWriteLock page)
  else .ok (update states page (some ⟨.write, none, 0⟩))

def writeEnd : Option (PageStates Bytes) :=
  match states page with
  | some ⟨.write, none, 0⟩ => some (update states page none)
  | _ => none

def loadStart : Except SyncError (PageLoadAction × PageStates Bytes) :=
  match states page with
  | some ⟨.write, _, _⟩ => .error (.unableToGetLoadLock page)
  | some ⟨.load, result, waits⟩ =>
    .ok (.wait, update states page (some ⟨.load, result, waits + 1⟩))
  | none => .ok (.load, update states page (some ⟨.load, none, 0⟩))

def loadEnd (result : Except SyncError Bytes) : Option (PageStates Bytes) :=
  match states page with
  | some ⟨.load, _, waits⟩ =>
    if 0 < waits then some (update states page (some ⟨.load, some result, waits⟩))
    else some (update states page none)
  | _ => none

def waitEnd : Option (PageStates Bytes) :=
  match states page with
  | some ⟨operation, result, waits⟩ =>
    if waits - 1 = 0 ∧ result.isSome then some (update states page none)
    else some (update states page (some ⟨operation, result, waits - 1⟩))
  | none => none

end PageStates

/-! ## Guards -/

/-- `PageStatesGuard`: the pages whose state a coroutine has to end. -/
structure Guard where
  pagesToLoad : List PageNo
  pagesToWait : List PageNo
  deriving DecidableEq, Repr

def Guard.new : Guard := ⟨[], []⟩

/-- The page states with the guard of the running coroutine. -/
structure Guarded (Bytes : Type) where
  guard : Guard
  states : PageStates Bytes

namespace Guarded

variable (page : PageNo) (guarded : Guarded Bytes)

def loadStart : Except SyncError (PageLoadAction × Guarded Bytes) :=
  (guarded.states.loadStart page).map fun (action, states) =>
    match action with
    | .load => (.load, ⟨{ guarded.guard with
        pagesToLoad := guarded.guard.pagesToLoad ++ [page] }, states⟩)
    | .wait => (.wait, ⟨{ guarded.guard with
        pagesToWait := guarded.guard.pagesToWait ++ [page] }, states⟩)

def loadEnd (result : Except SyncError Bytes) : Option (Guarded Bytes) :=
  (guarded.states.loadEnd page result).map fun states =>
    ⟨{ guarded.guard with
      pagesToLoad := guarded.guard.pagesToLoad.filter fun other => other ≠ page }, states⟩

def waitEnd : Option (Guarded Bytes) :=
  (guarded.states.waitEnd page).map fun states =>
    ⟨{ guarded.guard with
      pagesToWait := guarded.guard.pagesToWait.filter fun other => other ≠ page }, states⟩

/-- The end of the guard: it gives up its waits and fails its loads. -/
def drop : Option (Guarded Bytes) := do
  let waited ← guarded.guard.pagesToWait.foldlM (fun guarded page => waitEnd page guarded) guarded
  waited.guard.pagesToLoad.foldlM (fun guarded page => loadEnd page guarded (.error .unableToLoad))
    waited

/-- Mark one more page for the load, unless it is taken. -/
def tryMark (guarded : Guarded Bytes) (page : PageNo) : Option (Guarded Bytes) :=
  match guarded.loadStart page with
  | .ok (.wait, marked) => marked.waitEnd page
  | .ok (.load, marked) => some marked
  | .error _ => some guarded

end Guarded

/-! ## Files -/

/-- The clean file and the dirty file, which is there unless the file system is atomic; `none` is a
hole. -/
structure Files (Bytes : Type) where
  clean : PageNo → Option Bytes
  dirty : Option (PageNo → Option Bytes)

namespace Files

variable (files : Files Bytes) (page : PageNo)

/-- The page of the dirty file. -/
def dirtyPage : Option Bytes :=
  files.dirty.bind fun dirty => dirty page

/-- A loaded page: it is written to the dirty file, then to the clean file, and then punched out of the
dirty file. -/
def install (bytes : Bytes) : Files Bytes where
  clean := update files.clean page (some bytes)
  dirty := files.dirty.map fun dirty =>
    update (update dirty page (some bytes)) page none

/-- A local write: the page is punched out of the dirty file and written to the clean file. -/
def write (bytes : Bytes) : Files Bytes where
  clean := update files.clean page (some bytes)
  dirty := files.dirty.map fun dirty => update dirty page none

/-- The bytes of a page that can be read without a load: there is no hole, and the dirty file has a
hole or the same bytes. -/
def validPage [DecidableEq Bytes] (files : Files Bytes) (page : PageNo) : Option Bytes :=
  match files.clean page, files.dirtyPage page with
  | none, _ => none
  | some bytes, none => some bytes
  | some bytes, some check => if check = bytes then some bytes else none

end Files

/-! ## Coroutines -/

/-- `PAGE_SIZE`. -/
def pageSize : ℕ := 4096

/-- `PartialSyncOpts`, and how the pages are found that a page points to (none if its type is not
valid). -/
structure PartialSyncOpts (Bytes : Type) where
  segmentSize : ℕ
  prefetch : Bool
  pageRefs : Bytes → Option (List PageNo)

namespace PartialSyncOpts

variable (opts : PartialSyncOpts Bytes)

/-- `segment_size`. -/
def segmentBytes : ℕ :=
  if opts.segmentSize = 0 then 128 * 1024 else opts.segmentSize

/-- The other pages in the segment of a page. -/
def segmentPages (page : PageNo) : List PageNo :=
  let segmentStart := page * pageSize / opts.segmentBytes * opts.segmentBytes
  let segmentEnd := segmentStart + opts.segmentBytes
  (List.range' (segmentStart / pageSize) (segmentEnd / pageSize - segmentStart / pageSize)).filter
    fun other => other ≠ page

/-- The pages to prefetch. -/
def prefetchPages (data : Bytes) : Option (List PageNo) :=
  if opts.prefetch then opts.pageRefs data else none

end PartialSyncOpts

section
variable (Bytes : Type)

/-- Where a coroutine has yielded: not yet started, waiting for the load of another one, waiting for
the server, or waiting for the server with the page in hand. -/
inductive Phase where
  | created
  | waiting
  | loading
  | prefetching (data : Bytes)
  | finished

/-- A coroutine that reads a page. -/
structure Task where
  page : PageNo
  guard : Guard
  phase : Phase Bytes

/-- What the server has answered. -/
inductive Reply where
  | pending
  | failed
  | pages (loaded : List (PageNo × Bytes))

/-- What a step tells its caller. -/
inductive Outcome where
  | none
  | data (page : PageNo) (bytes : Bytes)
  | noData (page : PageNo)
  | failed
  deriving DecidableEq, Repr

/-- A coroutine between two resumptions, with all it can change. -/
structure Running where
  phase : Phase Bytes
  guarded : Guarded Bytes
  files : Files Bytes
  outcome : Outcome Bytes

end

variable (opts : PartialSyncOpts Bytes) (page : PageNo) (guarded : Guarded Bytes)
  (files : Files Bytes)

/-- The coroutine ends and drops its guard. -/
def finish (outcome : Outcome Bytes) : Option (Running Bytes) :=
  guarded.drop.map fun dropped => ⟨.finished, dropped, files, outcome⟩

/-- The page is there: prefetch what it points to, or hand it over. -/
def afterData (data : Bytes) (guarded : Guarded Bytes) (files : Files Bytes) :
    Option (Running Bytes) :=
  match opts.prefetchPages data with
  | none => finish guarded files (.data page data)
  | some refs => do
    let marked ← refs.foldlM Guarded.tryMark guarded
    if marked.guard.pagesToLoad = [] then finish marked files (.data page data)
    else some ⟨.prefetching data, marked, files, .none⟩

/-- The pages that the server sends are installed and their loads end. -/
def installPages (loaded : List (PageNo × Bytes)) (guarded : Guarded Bytes) (files : Files Bytes) :
    Option (Guarded Bytes × Files Bytes) :=
  loaded.foldlM (fun current entry =>
    (current.1.loadEnd entry.1 (.ok entry.2)).map fun ended =>
      (ended, current.2.install entry.1 entry.2)) (guarded, files)

/-- The first resumption of `read_page`. -/
def resumeCreated (states : PageStates Bytes) (files : Files Bytes) : Option (Running Bytes) :=
  match Guarded.loadStart page ⟨.new, states⟩ with
  | .error _ => some ⟨.finished, ⟨.new, states⟩, files, .failed⟩
  | .ok (.wait, guarded) => some ⟨.waiting, guarded, files, .none⟩
  | .ok (.load, guarded) => do
    let marked ← (opts.segmentPages page).foldlM Guarded.tryMark guarded
    some ⟨.loading, marked, files, .none⟩

/-- A coroutine that waits for the load of another one looks for its result. -/
def resumeWaiting : Option (Running Bytes) :=
  match guarded.states page with
  | none => none
  | some info =>
    match info.loadResult with
    | none => some ⟨.waiting, guarded, files, .none⟩
    | some (.error _) => finish guarded files .failed
    | some (.ok data) => afterData opts page data guarded files

/-- A coroutine that waits for the server. -/
def resumeLoading (reply : Reply Bytes) (guarded : Guarded Bytes) (files : Files Bytes) :
    Option (Running Bytes) :=
  match reply with
  | .pending => some ⟨.loading, guarded, files, .none⟩
  | .failed => finish guarded files .failed
  | .pages loaded => do
    let (ended, installed) ← installPages loaded guarded files
    match loaded.lookup page with
    | none => finish ended installed (.noData page)
    | some data => afterData opts page data ended installed

/-- A coroutine that waits for its prefetch. -/
def resumePrefetching (data : Bytes) (reply : Reply Bytes) (guarded : Guarded Bytes)
    (files : Files Bytes) : Option (Running Bytes) :=
  match reply with
  | .pending => some ⟨.prefetching data, guarded, files, .none⟩
  | .failed => finish guarded files .failed
  | .pages loaded => do
    let (ended, installed) ← installPages loaded guarded files
    finish ended installed (.data page data)

/-- One resumption of a coroutine. -/
def resume (task : Task Bytes) (reply : Reply Bytes) (states : PageStates Bytes)
    (files : Files Bytes) : Option (Running Bytes) :=
  match task.phase with
  | .created => resumeCreated opts task.page states files
  | .waiting => resumeWaiting opts task.page ⟨task.guard, states⟩ files
  | .loading => resumeLoading opts task.page reply ⟨task.guard, states⟩ files
  | .prefetching data => resumePrefetching task.page data reply ⟨task.guard, states⟩ files
  | .finished => none

/-! ## The storage -/

/-- `LazyDatabaseStorage`, its coroutines, and the latest local write to each page. -/
structure Storage (Bytes : Type) where
  files : Files Bytes
  fileSize : ℕ
  states : PageStates Bytes
  tasks : List (Task Bytes)
  written : PageNo → Option Bytes

/-- A call of the storage, or one resumption of a coroutine. -/
inductive Event (Bytes : Type) where
  | readPage (page : PageNo)
  | writePage (page : PageNo) (buffer : Bytes)
  | writePages (first : PageNo) (buffers : List Bytes)
  | resume (task : ℕ) (reply : Reply Bytes)

namespace Storage

variable (storage : Storage Bytes)

/-- `LazyDatabaseStorage::read_page`. -/
def readPage [DecidableEq Bytes] : Storage Bytes × Outcome Bytes :=
  if storage.fileSize ≤ page then (storage, .noData page)
  else
    match storage.files.validPage page with
    | some bytes => (storage, .data page bytes)
    | none => ({ storage with tasks := storage.tasks ++ [⟨page, .new, .created⟩] }, .none)

/-- A page reaches the clean file. -/
def writeFile (buffer : Bytes) : Storage Bytes :=
  { storage with
    files := storage.files.write page buffer
    fileSize := max storage.fileSize (page + 1)
    written := update storage.written page (some buffer) }

/-- `LazyDatabaseStorage::write_page`, which takes the page for the time of the write. -/
def writePage (buffer : Bytes) : Option (Storage Bytes × Outcome Bytes) :=
  match storage.states.writeStart page with
  | .error _ => some (storage, .failed)
  | .ok states => do
    let ended ← PageStates.writeEnd page states
    some ({ storage.writeFile page buffer with states := ended }, .none)

/-- `LazyDatabaseStorage::write_pages`, which looks at no page state. -/
def writePages (first : PageNo) (buffers : List Bytes) : Storage Bytes :=
  buffers.zipIdx.foldl (fun storage entry => storage.writeFile (first + entry.2) entry.1) storage

/-- The storage after one resumption of a coroutine. -/
def resumeTask (index : ℕ) (reply : Reply Bytes) : Option (Storage Bytes × Outcome Bytes) := do
  let task ← storage.tasks[index]?
  let running ← resume opts task reply storage.states storage.files
  some ({ storage with
    files := running.files
    states := running.guarded.states
    tasks := storage.tasks.set index ⟨task.page, running.guarded.guard, running.phase⟩ },
    running.outcome)

/-- One step. -/
def step [DecidableEq Bytes] : Event Bytes → Option (Storage Bytes × Outcome Bytes)
  | .readPage page => some (storage.readPage page)
  | .writePage page buffer => storage.writePage page buffer
  | .writePages first buffers => some (storage.writePages first buffers, .none)
  | .resume task reply => storage.resumeTask opts task reply

end Storage

end Turso.Sync
