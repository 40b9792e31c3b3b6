import Turso.Foundation.ByteBuffer
import Turso.Foundation.KeyedLog
import Mathlib.Data.Finset.Basic

/-!
# Savepoints of the pager

The savepoint stack of the pager (`core/storage/pager.rs`) with the state it works on:
the page cache, the write-ahead log as this connection sees it, and the subjournal.
All savepoints share one subjournal, a file of page images; a savepoint knows where
its images start.  Before a page is changed, `subjournal_page_if_required` appends its
image, unless the newest savepoint already has one or the page is younger than it.

A dirty page may be spilled, that is written to the log before the transaction
commits, and then evicted.  Rolling back therefore has three parts: put the images back
into the cache, drop what lies beyond the old end of the database, and rewind the log.

Offsets into the subjournal count records: a record is a page number and the page, and
has the same size for all pages.  The stack is a list with the newest savepoint first.
-/

namespace Turso.Subjournal

/-- A page in the cache. -/
structure CachedPage where
  contents : ByteBuffer
  dirty : Bool
  /-- The contents have been written to the log, so the page may be evicted. -/
  spilled : Bool
  /-- The frame the contents were read from or written to. -/
  walTag : Option ℕ

/-- `Page::set_dirty`. -/
def CachedPage.setDirty (page : CachedPage) : CachedPage :=
  { page with dirty := true, spilled := false, walTag := none }

/-- `SavepointKind`. -/
inductive SavepointKind where
  | statement
  | named (name : String) (startsTransaction : Bool)
  deriving DecidableEq, Repr

def SavepointKind.isNamed (name : String) : SavepointKind → Bool
  | .statement => false
  | .named savepointName _ => savepointName = name

/-- `Savepoint`. -/
structure Savepoint where
  kind : SavepointKind
  startOffset : ℕ
  writeOffset : ℕ
  pageBitmap : Finset ℕ
  dbSize : ℕ
  walPos : Option ℕ
  deferredFkViolations : ℤ

/-- `SavepointResult`. -/
inductive SavepointResult where
  | commit
  | release
  | notFound
  deriving DecidableEq, Repr

/-- The part of a connection's pager that savepoints work on. -/
structure Pager where
  cache : ℕ → Option CachedPage
  dirtyPages : Finset ℕ
  /-- The frames of the log up to the connection's `max_frame`. -/
  wal : List (ℕ × ByteBuffer)
  holdsWriteLock : Bool
  /-- The database file. -/
  database : ℕ → ByteBuffer
  subjournal : Option (List (ℕ × ByteBuffer))
  /-- The savepoint stack, newest first. -/
  savepoints : List Savepoint

variable (pager : Pager)

/-- What a read of a page that is not cached returns. -/
def Pager.stored : ℕ → ByteBuffer := KeyedLog.redo pager.wal pager.database

/-- The contents of the pages as the connection sees them. -/
def Pager.contents (pager : Pager) (id : ℕ) : ByteBuffer :=
  match pager.cache id with
  | some page => page.contents
  | none => pager.stored id

/-- The field `database_size` of the database header on page 1. -/
def databaseSize (contents : ℕ → ByteBuffer) : ℕ := (contents 1).readU32 28

/-! ## The subjournal -/

/-- `Pager::open_subjournal`. -/
def openSubjournal : Pager :=
  match pager.subjournal with
  | some _ => pager
  | none => { pager with subjournal := some [] }

/-- `Subjournal::write_page`: a positioned write of one record. -/
def writeRecord (journal : List (ℕ × ByteBuffer)) (offset : ℕ) (record : ℕ × ByteBuffer) :
    List (ℕ × ByteBuffer) :=
  journal.take offset ++ record :: journal.drop (offset + 1)

variable (id : ℕ)

/-- `Pager::subjournal_page_if_required`. -/
def subjournalPageIfRequired (contents : ByteBuffer) : Pager :=
  match pager.subjournal, pager.savepoints with
  | some journal, curSavepoint :: older =>
    if curSavepoint.dbSize < id then pager
    else if id ∈ curSavepoint.pageBitmap then pager
    else
      { pager with
        subjournal := some (writeRecord journal curSavepoint.writeOffset (id, contents))
        savepoints :=
          { curSavepoint with
            pageBitmap := insert id curSavepoint.pageBitmap
            writeOffset := curSavepoint.writeOffset + 1 } :: older }
  | _, _ => pager

/-- `Subjournal::truncate`. -/
def truncateSubjournal (offset : ℕ) (pager : Pager) : Pager :=
  { pager with subjournal := pager.subjournal.map (·.take offset) }

/-! ## Pages -/

/-- `Pager::read_page` on a page that is not cached; `tag` is the frame it came from. -/
def loadPage (tag : Option ℕ) (pager : Pager) : Pager :=
  let page := { contents := pager.stored id, dirty := false, spilled := false, walTag := tag }
  { pager with cache := Function.update pager.cache id (some page) }

/-- The cache gives a page up. -/
def evictPage (pager : Pager) : Pager :=
  { pager with cache := Function.update pager.cache id none }

/-- `Pager::add_dirty` on `page`, and then the change it announces. -/
def modifyPage (page : CachedPage) (contents : ByteBuffer) (pager : Pager) : Pager :=
  let pager := subjournalPageIfRequired pager id page.contents
  let page := { page.setDirty with contents := contents }
  { pager with
    dirtyPages := insert id pager.dirtyPages
    cache := Function.update pager.cache id (some page) }

/-- `spill_append_frames_to_wal`: journal the pages, append them to the log and mark
them as spilled. -/
def spillPages (pages : List (ℕ × ByteBuffer)) (pager : Pager) : Pager :=
  let pager := pages.foldl (fun pager page => subjournalPageIfRequired pager page.1 page.2) pager
  { pager with
    wal := pager.wal ++ pages
    cache := fun id =>
      if id ∈ KeyedLog.keys pages then
        (pager.cache id).map fun page =>
          { page with
            spilled := true
            walTag := some (pager.wal.length + (KeyedLog.keys pages).idxOf id + 1) }
      else pager.cache id }

/-! ## Savepoints -/

/-- `Pager::open_savepoint_with_kind`. -/
def openSavepointWithKind (kind : SavepointKind) (dbSize : ℕ) (deferredFkViolations : ℤ)
    (pager : Pager) : Pager :=
  let subjournalOffset := (pager.savepoints.head?.map (·.writeOffset)).getD 0
  let savepoint :=
    { kind := kind
      startOffset := subjournalOffset
      writeOffset := subjournalOffset
      pageBitmap := ∅
      dbSize := dbSize
      walPos := if pager.holdsWriteLock then some pager.wal.length else none
      deferredFkViolations := deferredFkViolations }
  { pager with savepoints := savepoint :: pager.savepoints }

/-- `parent.set_write_offset` on the newest savepoint that is left, if any. -/
def setWriteOffset (offset : ℕ) : List Savepoint → List Savepoint
  | [] => []
  | parent :: older => { parent with writeOffset := offset } :: older

/-- `rposition` over the stack: the newest entry of that name and the older ones. -/
def findNamed {α : Type} (kind : α → SavepointKind) (name : String) :
    List α → Option (α × List α)
  | [] => none
  | entry :: older =>
    if (kind entry).isNamed name then some (entry, older) else findNamed kind name older

/-- The savepoints that are left after some were released: they inherit the end of the
subjournal, which is emptied with the last one. -/
def keepOlder (older : List Savepoint) (journalEndOffset : ℕ) (pager : Pager) : Pager :=
  match older with
  | [] => truncateSubjournal 0 { pager with savepoints := [] }
  | _ :: _ => { pager with savepoints := setWriteOffset journalEndOffset older }

/-- `Pager::release_savepoint`. -/
def releaseSavepoint : Pager :=
  match pager.savepoints with
  | savepoint :: older =>
    if savepoint.kind = .statement then keepOlder older savepoint.writeOffset pager else pager
  | [] => pager

/-- `Pager::release_named_savepoint`. -/
def releaseNamedSavepoint (name : String) (pager : Pager) : SavepointResult × Pager :=
  match findNamed Savepoint.kind name pager.savepoints with
  | none => (.notFound, pager)
  | some (target, older) =>
    if target.kind = .named name true ∧ older = [] then (.commit, pager)
    else
      let journalEndOffset := (pager.savepoints.head?.map (·.writeOffset)).getD 0
      (.release, keepOlder older journalEndOffset pager)

/-- The loop of `rollback_to_snapshot` over the records of the subjournal: the first
image of each page goes back into the cache. -/
def restoreImages (dbSize : ℕ) : List (ℕ × ByteBuffer) → Finset ℕ → Pager → Pager
  | [], _, pager => pager
  | (id, image) :: rest, rollbackBitset, pager =>
    if id ∈ rollbackBitset then restoreImages dbSize rest rollbackBitset pager
    else if dbSize < id then restoreImages dbSize rest rollbackBitset pager
    else
      let page := { contents := image, dirty := true, spilled := false, walTag := none }
      restoreImages dbSize rest (insert id rollbackBitset)
        { pager with
          dirtyPages := insert id pager.dirtyPages
          cache := Function.update pager.cache id (some page) }

/-- Drop the pages past the end of the database from the dirty pages and the cache. -/
def truncateCache (dbSize : ℕ) (pager : Pager) : Pager :=
  { pager with
    dirtyPages := pager.dirtyPages.filter (· ≤ dbSize)
    cache := fun id => if dbSize < id then none else pager.cache id }

/-- `Wal::rollback` and `PageCache::delete_clean_pages_after_wal_frame`. -/
def rewindWal (maxFrame : ℕ) (pager : Pager) : Pager :=
  { pager with
    wal := pager.wal.take maxFrame
    cache := fun id => (pager.cache id).filter fun page =>
      page.dirty || !(page.walTag.any (maxFrame < ·)) }

/-- `Pager::rollback_to_snapshot`. -/
def rollbackToSnapshot (savepoint : Savepoint) (journalEndOffset : ℕ) (pager : Pager) : Pager :=
  match pager.subjournal with
  | none => pager
  | some journal =>
    let records := (journal.drop savepoint.startOffset).take
      (journalEndOffset - savepoint.startOffset)
    let pager := restoreImages savepoint.dbSize records ∅ pager
    let pager := truncateCache savepoint.dbSize (truncateSubjournal savepoint.startOffset pager)
    match savepoint.walPos with
    | some maxFrame => rewindWal maxFrame pager
    | none => pager

/-- `Pager::rollback_to_newest_savepoint`. -/
def rollbackToNewestSavepoint : Bool × Pager :=
  match pager.savepoints with
  | savepoint :: older =>
    if savepoint.kind = .statement then
      let pager := rollbackToSnapshot savepoint savepoint.writeOffset
        { pager with savepoints := older }
      (true, { pager with savepoints := setWriteOffset savepoint.startOffset older })
    else (false, pager)
  | [] => (false, pager)

/-- `Savepoint::from_snapshot`. -/
def Savepoint.fromSnapshot (snapshot : Savepoint) : Savepoint :=
  { snapshot with writeOffset := snapshot.startOffset, pageBitmap := ∅ }

/-- `Pager::rollback_to_named_savepoint`. -/
def rollbackToNamedSavepoint (name : String) (pager : Pager) : Option ℤ × Pager :=
  match findNamed Savepoint.kind name pager.savepoints with
  | none => (none, pager)
  | some (target, older) =>
    let journalEndOffset := (pager.savepoints.head?.map (·.writeOffset)).getD target.writeOffset
    let pager := rollbackToSnapshot target journalEndOffset pager
    (some target.deferredFkViolations,
      { pager with
        savepoints := target.fromSnapshot :: setWriteOffset target.startOffset older })

/-- `Pager::begin_write_tx`: take the write lock and fill in the log positions that are
not known yet.  The log may be restarted on the way, when the database file has all of
its frames. -/
def beginWriteTx (restarts : Bool) (pager : Pager) : Pager :=
  if pager.holdsWriteLock then pager
  else
    let pager := if restarts then { pager with wal := [], database := pager.stored } else pager
    { pager with
      holdsWriteLock := true
      savepoints := pager.savepoints.map fun savepoint =>
        { savepoint with walPos := some (savepoint.walPos.getD pager.wal.length) } }

end Turso.Subjournal
