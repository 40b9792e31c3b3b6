import Turso.Foundation.ByteBuffer
import Turso.Storage.PageSize

/-!
# Allocating and freeing pages

`Pager::allocate_page` and `Pager::free_page` (`core/storage/pager.rs`) keep the
free pages of a database in a chain of trunk pages.  A trunk page holds the
number of the next trunk, a count, and that many numbers of free leaf pages; the
header on page 1 holds the first trunk and the total number of free pages.

Both functions are state machines that may be interrupted wherever they wait for
I/O, and are then called again.  Their states are `AllocatePageState` and
`FreePageState`; one call runs from the saved state until it finishes, fails or
waits.  Where a call waits is not up to the pager, so it is part of the
environment `Io` of the call.  The page cache and the file are one store here:
`pages` maps a page number to the contents a read of it would return.

Arithmetic on page numbers is 32-bit; an addition that overflows stops the call
with `LimboError.overflow`.
-/

namespace Turso.Freelist

open Function

/-- `AutoVacuumMode`. -/
inductive AutoVacuumMode where
  | none
  | full
  | incremental
  deriving DecidableEq, Repr

/-- What stays fixed while a database is open. -/
structure Config where
  layout : PageLayout
  autoVacuumMode : AutoVacuumMode

/-- The fields of the database header that the two functions use. -/
structure Header where
  databaseSize : ℕ
  freelistTrunkPage : ℕ
  freelistPages : ℕ
  deriving DecidableEq, Repr

/-- `AllocatePageState`. -/
inductive AllocatePageState where
  | start
  | searchAvailableFreeListLeaf (trunkPage : ℕ)
  | reuseFreelistLeaf (trunkPage leafPage numberOfFreelistLeaves : ℕ)
  | allocateNewPage (currentDbSize : ℕ)
  deriving DecidableEq, Repr

/-- `FreePageState`. -/
inductive FreePageState where
  | start
  | addToTrunk (page : ℕ)
  | newTrunk (page : ℕ)
  deriving DecidableEq, Repr

/-- The part of the pager the two functions read and write. -/
structure Pager where
  header : Header
  pages : ℕ → ByteBuffer
  /-- Which pages have overflow cells pending in memory. -/
  overflowCells : ℕ → Bool
  allocatePageState : AllocatePageState
  freePageState : FreePageState

/-- The places where a call may wait. -/
inductive YieldPoint where
  | cacheSpace
  | header
  | spillTrunk
  | loadTrunk
  | spillPage
  | loadPage
  deriving DecidableEq, Repr

/-- What the environment decides during one call: where it waits, the page limit
in force, and the contents of buffers that are handed out without being
cleared. -/
structure Io where
  waits : YieldPoint → Bool
  maxPageCount : ℕ
  ptrmapCached : Bool
  newBuffer : ByteBuffer

/-- No call waits, and there is no room after the page `maxPageCount`. -/
def limitedTo (maxPageCount : ℕ) : Io := ⟨fun _ => false, maxPageCount, false, .zeros⟩

/-- The outcome of one call, with the pager it leaves behind. -/
abbrev Outcome (α : Type) := Except LimboError (IOResult α) × Pager

/-! ## The layout of a trunk page -/

/-- `FREELIST_TRUNK_OFFSET_NEXT_TRUNK_PTR`. -/
def trunkOffsetNextTrunkPtr : ℕ := 0

/-- `FREELIST_TRUNK_OFFSET_LEAF_COUNT`. -/
def trunkOffsetLeafCount : ℕ := 4

/-- `FREELIST_TRUNK_OFFSET_FIRST_LEAF_PTR`. -/
def trunkOffsetFirstLeafPtr : ℕ := 8

/-- `FREELIST_LEAF_PTR_SIZE`. -/
def leafPtrSize : ℕ := 4

/-- `RESERVED_SLOTS` of `free_page`. -/
def reservedSlots : ℕ := 2

/-- The number of leaf pointers a trunk page has room for. -/
def maxFreeListEntries (layout : PageLayout) : ℕ := layout.usableSpace / leafPtrSize - reservedSlots

/-- Page numbers are below this bound. -/
def pageNumberLimit : ℕ := 4294967296

/-! ## `allocate_page` -/

variable (cfg : Config)

/-- The page past the end of the file, stepping over the pending-byte page. -/
def newPage (currentDbSize : ℕ) : ℕ :=
  if currentDbSize + 1 = pendingBytePageId cfg.layout.pageSize then currentDbSize + 2
  else currentDbSize + 1

variable (io : Io)

/-- The pages after a buffer has been set up for the pending-byte page, if it is next. -/
def skipPendingBytePage (currentDbSize : ℕ) (pages : ℕ → ByteBuffer) : ℕ → ByteBuffer :=
  if currentDbSize + 1 = pendingBytePageId cfg.layout.pageSize then
    update pages (currentDbSize + 1) io.newBuffer
  else pages

/-- The state `AllocateNewPage`: extend the file. -/
def allocateNewPage (currentDbSize : ℕ) (pager : Pager) : Outcome ℕ :=
  if pageNumberLimit ≤ currentDbSize + 1 then (.error .overflow, pager)
  else
    let newDbSize := newPage cfg currentDbSize
    let pages := skipPendingBytePage cfg io currentDbSize pager.pages
    if pageNumberLimit ≤ newDbSize then (.error .overflow, { pager with pages := pages })
    else if io.maxPageCount < newDbSize then (.error .databaseFull, { pager with pages := pages })
    else
      (.ok (.done newDbSize),
        { pager with
          header := { pager.header with databaseSize := newDbSize }
          pages := update pages newDbSize io.newBuffer
          overflowCells := update pager.overflowCells newDbSize false
          allocatePageState := .start })

/-- The state `ReuseFreelistLeaf`: take the first leaf and shift the others down. -/
def reuseFreelistLeaf (trunkPage leafPage numberOfFreelistLeaves : ℕ) (pager : Pager) :
    Outcome ℕ :=
  if pager.overflowCells leafPage then
    (.error (.corrupt s!"freelist leaf page {leafPage} is in use by a b-tree"), pager)
  else
    let pages := update pager.pages leafPage ByteBuffer.zeros
    let remaining := numberOfFreelistLeaves - 1
    let shifted := (pages trunkPage).copyWithin (trunkOffsetFirstLeafPtr + leafPtrSize)
      (remaining * leafPtrSize) trunkOffsetFirstLeafPtr
    (.ok (.done leafPage),
      { pager with
        header := { pager.header with freelistPages := pager.header.freelistPages - 1 }
        pages := update pages trunkPage (shifted.writeU32 trunkOffsetLeafCount remaining)
        allocatePageState := .start })

/-- The state `SearchAvailableFreeListLeaf`: look for a leaf on the trunk, and
take the trunk itself if it has none. -/
def searchAvailableFreeListLeaf (trunkPage : ℕ) (pager : Pager) : Outcome ℕ :=
  let nextTrunkPage := (pager.pages trunkPage).readU32 trunkOffsetNextTrunkPtr
  let numberOfFreelistLeaves := (pager.pages trunkPage).readU32 trunkOffsetLeafCount
  if numberOfFreelistLeaves ≠ 0 then
    let nextLeafPage := (pager.pages trunkPage).readU32 trunkOffsetFirstLeafPtr
    let databaseSize := pager.header.databaseSize
    if nextLeafPage < 2 ∨ databaseSize < nextLeafPage then
      (.error (.corrupt
        s!"freelist leaf page {nextLeafPage} is outside the database of {databaseSize} pages"),
        pager)
    else if io.waits .spillPage then (.ok .io, pager)
    else
      let pager :=
        { pager with
          allocatePageState := .reuseFreelistLeaf trunkPage nextLeafPage numberOfFreelistLeaves }
      if io.waits .loadPage then (.ok .io, pager)
      else reuseFreelistLeaf trunkPage nextLeafPage numberOfFreelistLeaves pager
  else
    let header :=
      { pager.header with
        freelistTrunkPage := nextTrunkPage
        freelistPages := pager.header.freelistPages - 1 }
    if pager.overflowCells trunkPage then
      (.error (.corrupt s!"freelist trunk page {trunkPage} is in use by a b-tree"),
        { pager with header := header })
    else
      (.ok (.done trunkPage),
        { pager with
          header := header
          pages := update pager.pages trunkPage ByteBuffer.zeros
          allocatePageState := .start })

variable (databaseSize : ℕ)

/-- Whether the page after the last one is set aside for a pointer map. -/
def nextIsPtrmap : Bool :=
  cfg.autoVacuumMode = .full && isPtrmapPage (databaseSize + 1) cfg.layout.pageSize.get

/-- The database size `allocate_page` starts from: it counts the pointer-map page
that is due. -/
def baseSize : ℕ :=
  if nextIsPtrmap cfg databaseSize then databaseSize + 1 else databaseSize

/-- The pages after a buffer has been set up for the pointer-map page that is due, unless the
cache already has one. -/
def setAsidePtrmapPage (pages : ℕ → ByteBuffer) : ℕ → ByteBuffer :=
  if nextIsPtrmap cfg databaseSize ∧ io.ptrmapCached = false then
    update pages (databaseSize + 1) io.newBuffer
  else pages

/-- The state `Start`: set aside a pointer-map page if one is due, then use the
freelist if there is one. -/
def allocateStart (pager : Pager) : Outcome ℕ :=
  let oldDbSize := pager.header.databaseSize
  if cfg.autoVacuumMode = .full ∧ pageNumberLimit ≤ oldDbSize + 1 then (.error .overflow, pager)
  else
    let newDbSize := baseSize cfg oldDbSize
    let pager := { pager with pages := setAsidePtrmapPage cfg io oldDbSize pager.pages }
    let trunkPage := pager.header.freelistTrunkPage
    if trunkPage = 0 then
      allocateNewPage cfg io newDbSize { pager with allocatePageState := .allocateNewPage newDbSize }
    else if io.waits .spillTrunk then (.ok .io, pager)
    else
      let pager := { pager with allocatePageState := .searchAvailableFreeListLeaf trunkPage }
      if io.waits .loadTrunk then (.ok .io, pager)
      else searchAvailableFreeListLeaf io trunkPage pager

/-- `Pager::allocate_page`: one call. -/
def allocatePage (pager : Pager) : Outcome ℕ :=
  if io.waits .cacheSpace then (.ok .io, pager)
  else if io.waits .header then (.ok .io, pager)
  else match pager.allocatePageState with
    | .start => allocateStart cfg io pager
    | .searchAvailableFreeListLeaf trunkPage => searchAvailableFreeListLeaf io trunkPage pager
    | .reuseFreelistLeaf trunkPage leafPage numberOfFreelistLeaves =>
      reuseFreelistLeaf trunkPage leafPage numberOfFreelistLeaves pager
    | .allocateNewPage currentDbSize => allocateNewPage cfg io currentDbSize pager

/-! ## `free_page` -/

/-- The state `NewTrunk`: the freed page becomes the first trunk. -/
def newTrunk (page : ℕ) (pager : Pager) : Outcome Unit :=
  let contents := (pager.pages page).writeU32 trunkOffsetNextTrunkPtr
    pager.header.freelistTrunkPage
  (.ok (.done ()),
    { pager with
      header := { pager.header with freelistTrunkPage := page }
      pages := update pager.pages page (contents.writeU32 trunkOffsetLeafCount 0)
      freePageState := .start })

/-- The state `AddToTrunk`: the freed page becomes a leaf of the first trunk, or
a new trunk if that one is full. -/
def addToTrunk (page : ℕ) (pager : Pager) : Outcome Unit :=
  let trunkPage := pager.header.freelistTrunkPage
  if io.waits .spillTrunk then (.ok .io, pager)
  else if io.waits .loadTrunk then (.ok .io, pager)
  else
    let numberOfLeafPages := (pager.pages trunkPage).readU32 trunkOffsetLeafCount
    if numberOfLeafPages < maxFreeListEntries cfg.layout then
      let counted := (pager.pages trunkPage).writeU32 trunkOffsetLeafCount (numberOfLeafPages + 1)
      (.ok (.done ()),
        { pager with
          pages := update pager.pages trunkPage
            (counted.writeU32 (trunkOffsetFirstLeafPtr + numberOfLeafPages * leafPtrSize) page)
          freePageState := .start })
    else newTrunk page { pager with freePageState := .newTrunk page }

/-- The state `Start`: check the page number and count the page as free.  The
page is read only if the caller did not pass it in. -/
def freeStart (given : Bool) (pageId : ℕ) (pager : Pager) : Outcome Unit :=
  if pageId < 2 ∨ pager.header.databaseSize < pageId then
    (.error (.corrupt s!"Invalid page number {pageId} for free operation"), pager)
  else if given = false ∧ io.waits .spillPage = true then (.ok .io, pager)
  else
    let trunkPage := pager.header.freelistTrunkPage
    let pager :=
      { pager with
        header := { pager.header with freelistPages := pager.header.freelistPages + 1 }
        overflowCells := update pager.overflowCells pageId false
        freePageState := if trunkPage ≠ 0 then .addToTrunk pageId else .newTrunk pageId }
    if given = false ∧ io.waits .loadPage = true then (.ok .io, pager)
    else if trunkPage ≠ 0 then addToTrunk cfg io pageId pager
    else newTrunk pageId pager

/-- `Pager::free_page`: one call. -/
def freePage (given : Bool) (pageId : ℕ) (pager : Pager) : Outcome Unit :=
  if io.waits .header then (.ok .io, pager)
  else match pager.freePageState with
    | .start => freeStart cfg io given pageId pager
    | .addToTrunk page => addToTrunk cfg io page pager
    | .newTrunk page => newTrunk page pager

/-! ## The pages of the file are not set up again -/

variable {cfg databaseSize}

theorem le_baseSize : databaseSize ≤ baseSize cfg databaseSize := by
  unfold baseSize
  split_ifs <;> omega

/-- For `skipPendingBytePage` and `setAsidePtrmapPage`. -/
theorem setUp_of_le {pages : ℕ → ByteBuffer} {buffer : ByteBuffer} {due : Prop} [Decidable due]
    {page : ℕ} (hpage : page ≤ databaseSize) :
    (if due then update pages (databaseSize + 1) buffer else pages) page = pages page := by
  split_ifs
  · exact update_of_ne (by omega) ..
  · rfl

end Turso.Freelist
