import Turso.Storage.Freelist.Model

/-!
# Allocation in a full database

When the page limit is reached, `allocate_page` fails with `DatabaseFull`.  The header is then as it
was, but the call is not undone: the machine stays in `AllocateNewPage`, so that the next call
does not look at the freelist, and page 1 and the buffers set up for a pointer-map page and for the
pending-byte page stay dirty and in the cache (`full_ignores_freelist`).  What undoes it is the
rollback of the statement that failed.  `rollback_to_snapshot` resets the machines, restores the
pages of the subjournal and discards those past the size of the savepoint, and after it only page 1,
dirty and cached, tells that `allocate_page` was called (`full_undone`).

`CachedPager` adds to the pager its dirty pages, the keys of its cache, and the subjournal since the
newest savepoint.  No page is spilled to the log.
-/

namespace Turso.Freelist

open Function

/-- The pager with its dirty pages, its cached pages and its newest savepoint. -/
structure CachedPager extends Pager where
  dirtyPages : ℕ → Bool
  cachedPages : ℕ → Bool
  /-- The size of the database at the savepoint. -/
  dbSize : ℕ
  /-- The pages that have an image since the savepoint.  The header is part of page 1. -/
  subjournal : ℕ → Option (ByteBuffer × Header)

/-- The pages that the state `AllocateNewPage` marks dirty: the pending-byte page if it is next, and
the new page if there is room for it. -/
def newPageMarks (cfg : Config) (io : Io) (currentDbSize : ℕ) : List (ℕ × ByteBuffer) :=
  if pageNumberLimit ≤ currentDbSize + 1 then []
  else
    (if currentDbSize + 1 = pendingBytePageId cfg.layout.pageSize then
        [(currentDbSize + 1, io.newBuffer)] else []) ++
      (if newPage cfg currentDbSize < pageNumberLimit ∧ newPage cfg currentDbSize ≤ io.maxPageCount
        then [(newPage cfg currentDbSize, io.newBuffer)] else [])

/-- The pages that the state `ReuseFreelistLeaf` marks dirty.  The leaf is cleared first. -/
def reuseMarks (pager : Pager) (trunkPage leafPage : ℕ) : List (ℕ × ByteBuffer) :=
  (leafPage, pager.pages leafPage) :: if pager.overflowCells leafPage then []
    else [(trunkPage, update pager.pages leafPage ByteBuffer.zeros trunkPage)]

/-- The pages that the state `SearchAvailableFreeListLeaf` marks dirty. -/
def searchMarks (io : Io) (pager : Pager) (trunkPage : ℕ) : List (ℕ × ByteBuffer) :=
  let nextLeafPage := (pager.pages trunkPage).readU32 trunkOffsetFirstLeafPtr
  if (pager.pages trunkPage).readU32 trunkOffsetLeafCount = 0 then
    [(trunkPage, pager.pages trunkPage)]
  else if nextLeafPage < 2 ∨ pager.header.databaseSize < nextLeafPage ∨ io.waits .spillPage ∨
      io.waits .loadPage then []
  else reuseMarks pager trunkPage nextLeafPage

namespace CachedPager

variable (cfg : Config) (io : Io) (pager : CachedPager)

/-- The pages that the state `Start` marks dirty. -/
def startMarks : List (ℕ × ByteBuffer) :=
  let databaseSize := pager.header.databaseSize
  let trunkPage := pager.header.freelistTrunkPage
  if cfg.autoVacuumMode = .full ∧ pageNumberLimit ≤ databaseSize + 1 then []
  else
    (if nextIsPtrmap cfg databaseSize ∧ ¬ pager.cachedPages (databaseSize + 1) then
        [(databaseSize + 1, io.newBuffer)] else []) ++
    (if trunkPage = 0 then newPageMarks cfg io (baseSize cfg databaseSize)
      else if io.waits .spillTrunk ∨ io.waits .loadTrunk then []
      else searchMarks io { pager.toPager with
        pages := setAsidePtrmapPage cfg io databaseSize pager.pages } trunkPage)

/-- The pages that a call of `allocate_page` marks dirty, with their contents: page 1 with the
header, and those of its state. -/
def marks : List (ℕ × ByteBuffer) :=
  if io.waits .cacheSpace ∨ io.waits .header then []
  else (1, pager.pages 1) :: match pager.allocatePageState with
    | .start => pager.startMarks cfg io
    | .searchAvailableFreeListLeaf trunkPage => searchMarks io pager.toPager trunkPage
    | .reuseFreelistLeaf trunkPage leafPage _ => reuseMarks pager.toPager trunkPage leafPage
    | .allocateNewPage currentDbSize => newPageMarks cfg io currentDbSize

/-- `Pager::add_dirty`, with `subjournal_page_if_required`.  The page is in the cache, or is
inserted there. -/
def addDirty (page : ℕ × ByteBuffer) : CachedPager :=
  { pager with
    subjournal :=
      if page.1 ≤ pager.dbSize ∧ pager.subjournal page.1 = none then
        update pager.subjournal page.1 (some (page.2, pager.header))
      else pager.subjournal
    dirtyPages := update pager.dirtyPages page.1 true
    cachedPages := update pager.cachedPages page.1 true }

/-- The environment of a call, with the answer of this cache. -/
def answering : Io :=
  { io with ptrmapCached := pager.cachedPages (pager.header.databaseSize + 1) }

/-- `Pager::allocate_page`: one call. -/
def allocatePage : Except LimboError (IOResult ℕ) × CachedPager :=
  let io := pager.answering io
  let outcome := Freelist.allocatePage cfg io pager.toPager
  (outcome.1, { (pager.marks cfg io).foldl addDirty pager with toPager := outcome.2 })

/-- `rollback_to_snapshot`: `reset_internal_states`, the images come back and stay dirty, and the
pages past the size of the savepoint are discarded. -/
def rollbackToSnapshot : CachedPager :=
  let image id := if id ≤ pager.dbSize then pager.subjournal id else none
  { pager with
    header := ((image 1).map Prod.snd).getD pager.header
    allocatePageState := .start
    freePageState := .start
    pages := fun id =>
      if id ≤ pager.dbSize then ((image id).map Prod.fst).getD (pager.pages id) else .zeros
    overflowCells := fun id => id ≤ pager.dbSize && (image id).isNone && pager.overflowCells id
    dirtyPages := fun id => id ≤ pager.dbSize && ((image id).isSome || pager.dirtyPages id)
    cachedPages := fun id => id ≤ pager.dbSize && ((image id).isSome || pager.cachedPages id)
    subjournal := fun _ => none }

/-- Page 1 is dirty, in the cache and without cells that overflow. -/
def withFirstPage : CachedPager :=
  { pager with
    overflowCells := update pager.overflowCells 1 false
    dirtyPages := update pager.dirtyPages 1 true
    cachedPages := update pager.cachedPages 1 true }

variable {pager}

/-- Pages past the savepoint are not journaled. -/
theorem foldl_addDirty_past (pages : List (ℕ × ByteBuffer)) (pager : CachedPager)
    (hpast : ∀ page ∈ pages, pager.dbSize < page.1) :
    pages.foldl addDirty pager = { pager with
      dirtyPages := fun id => pages.any (·.1 = id) || pager.dirtyPages id
      cachedPages := fun id => pages.any (·.1 = id) || pager.cachedPages id } := by
  induction pages generalizing pager with
  | nil => rfl
  | cons page rest ih =>
    have hpage : ¬ page.1 ≤ pager.dbSize := not_le.mpr (hpast _ (by simp))
    have hmark (held : ℕ → Bool) : (fun id => rest.any (·.1 = id) || update held page.1 true id) =
        fun id => (page :: rest).any (·.1 = id) || held id := by
      funext id
      by_cases hid : id = page.1
      · simp [hid]
      · simp [hid, Ne.symm hid]
    rw [List.foldl_cons, ih (pager.addDirty page) fun other hm => hpast other (by simp [hm])]
    simp [addDirty, hpage, hmark]

/-- A rollback after page 1 was marked, and pages past the savepoint were set up. -/
theorem rollbackToSnapshot_marked {pages : ℕ → ByteBuffer} {setUp : ℕ → Bool}
    (state : AllocatePageState) (hpos : 1 ≤ pager.dbSize)
    (hpages : ∀ id ≤ pager.dbSize, pages id = pager.pages id)
    (hpast : ∀ id ≤ pager.dbSize, setUp id = false) :
    rollbackToSnapshot { pager.addDirty (1, pager.pages 1) with
        pages := pages
        allocatePageState := state
        dirtyPages := fun id => setUp id || update pager.dirtyPages 1 true id
        cachedPages := fun id => setUp id || update pager.cachedPages 1 true id } =
      pager.rollbackToSnapshot.withFirstPage := by
  -- page 1 has an image then, and it is the present one if there was none before
  have hjournal : (pager.addDirty (1, pager.pages 1)).subjournal =
      update pager.subjournal 1 (some ((pager.subjournal 1).getD (pager.pages 1, pager.header))) := by
    cases himage : pager.subjournal 1 with
    | none => simp [addDirty, himage, hpos]
    | some image => simp [addDirty, himage]
  simp only [rollbackToSnapshot, withFirstPage, hjournal, mk.injEq, Pager.mk.injEq]
  simp only [addDirty]
  refine ⟨⟨?_, ?_, ?_, trivial, trivial⟩, ?_, ?_, trivial, trivial⟩
  · cases pager.subjournal 1 <;> simp [hpos]
  all_goals
    funext id
    by_cases hone : id = 1
    · subst hone
      cases pager.subjournal 1 <;> simp [hpos]
    · by_cases hid : id ≤ pager.dbSize
      · simp [hid, hone, hpages, hpast]
      · simp [hid, hone]

end CachedPager

variable {cfg : Config} {io : Io} {currentDbSize : ℕ}

/-- A full database, found in the state `AllocateNewPage`: only the pending-byte page can have been
set up. -/
theorem allocateNewPage_full {pager : Pager}
    (hfull : (allocateNewPage cfg io currentDbSize pager).1 = .error .databaseFull) :
    (allocateNewPage cfg io currentDbSize pager).2 =
        { pager with pages := skipPendingBytePage cfg io currentDbSize pager.pages } ∧
      newPageMarks cfg io currentDbSize =
        if currentDbSize + 1 = pendingBytePageId cfg.layout.pageSize then
          [(currentDbSize + 1, io.newBuffer)] else [] := by
  unfold allocateNewPage at hfull ⊢
  unfold newPageMarks
  dsimp only at hfull ⊢
  split_ifs at hfull with hlimit hlimit' hroom
  · cases hfull
  · cases hfull
  · have hno : ¬ (newPage cfg currentDbSize < pageNumberLimit ∧
        newPage cfg currentDbSize ≤ io.maxPageCount) := fun h => absurd hroom (not_lt.mpr h.2)
    simp only [if_neg hlimit, if_neg hlimit', if_pos hroom, if_neg hno, List.append_nil, true_and]

theorem searchAvailableFreeListLeaf_ne_full (pager : Pager) (trunkPage : ℕ) :
    (searchAvailableFreeListLeaf io trunkPage pager).1 ≠ .error .databaseFull := by
  simp only [searchAvailableFreeListLeaf, reuseFreelistLeaf]
  split_ifs <;> simp

/-- A call that finds the database full leaves the header and the pages up to its size alone.  It
has marked page 1 and the pages that it set up. -/
theorem allocatePage_full {pager : CachedPager}
    (hfull : (allocatePage cfg io pager.toPager).1 = .error .databaseFull)
    (hstale : ∀ size, pager.allocatePageState = .allocateNewPage size →
      pager.header.databaseSize ≤ size) :
    ∃ size pages setUp, (allocatePage cfg io pager.toPager).2 =
        { pager.toPager with pages := pages, allocatePageState := .allocateNewPage size } ∧
      (∀ id ≤ pager.header.databaseSize, pages id = pager.pages id) ∧
      pager.marks cfg io = (1, pager.pages 1) :: setUp ∧
      (∀ page ∈ setUp, pager.header.databaseSize < page.1) ∧
      (size + 1 = pendingBytePageId cfg.layout.pageSize → (size + 1, io.newBuffer) ∈ setUp) ∧
      (pager.allocatePageState = .start → nextIsPtrmap cfg pager.header.databaseSize →
        ¬ pager.cachedPages size → (size, io.newBuffer) ∈ setUp) := by
  have hspace : ¬ io.waits .cacheSpace = true := fun h => by simp [allocatePage, h] at hfull
  have hheader : ¬ io.waits .header = true := fun h => by simp [allocatePage, h] at hfull
  rw [allocatePage, if_neg hspace, if_neg hheader] at hfull ⊢
  rw [CachedPager.marks, if_neg (not_or.mpr ⟨hspace, hheader⟩)]
  cases ht : pager.allocatePageState with
  | start =>
    rw [ht] at hfull
    simp only [allocateStart, CachedPager.startMarks] at hfull ⊢
    have hlimit : ¬ (cfg.autoVacuumMode = .full ∧
        pageNumberLimit ≤ pager.header.databaseSize + 1) := fun h => by simp [h] at hfull
    simp only [if_neg hlimit] at hfull ⊢
    have htrunk : pager.header.freelistTrunkPage = 0 := by
      by_contra hne
      rw [if_neg hne] at hfull
      split_ifs at hfull
      exact absurd hfull (searchAvailableFreeListLeaf_ne_full _ _)
    simp only [if_pos htrunk] at hfull ⊢
    obtain ⟨hpager, hmarks⟩ := allocateNewPage_full hfull
    rw [hmarks]
    have hle : pager.header.databaseSize ≤ baseSize cfg pager.header.databaseSize := le_baseSize
    refine ⟨_, _, _, hpager, fun id hid => ?_, rfl, fun id hid => ?_, fun hpending => ?_,
      fun _ hptrmap hcached => ?_⟩
    · exact (setUp_of_le (hid.trans hle)).trans (setUp_of_le hid)
    · split_ifs at hid <;> grind
    · simp [hpending]
    · rw [baseSize, if_pos hptrmap] at hcached ⊢
      simp [hptrmap, hcached]
  | searchAvailableFreeListLeaf trunkPage =>
    rw [ht] at hfull
    exact absurd hfull (searchAvailableFreeListLeaf_ne_full _ _)
  | reuseFreelistLeaf trunkPage leafPage leaves =>
    rw [ht] at hfull
    simp only [reuseFreelistLeaf] at hfull
    split_ifs at hfull
    simp at hfull
  | allocateNewPage size =>
    rw [ht] at hfull
    obtain ⟨hpager, hmarks⟩ := allocateNewPage_full hfull
    have hle := hstale size ht
    dsimp only
    rw [hmarks]
    refine ⟨size, _, _, hpager.trans (by rw [← ht]), fun id hid => ?_, rfl, fun id hid => ?_,
      fun hpending => ?_, nofun⟩
    · exact setUp_of_le (hid.trans hle)
    · split_ifs at hid <;> grind
    · simp [hpending]

variable {pager : CachedPager}

def fullConfig : Config := ⟨.smallest, .none⟩

/-- A database without free pages, and with no page cached, at a savepoint of its size. -/
def fullPager (databaseSize : ℕ) : CachedPager where
  header := ⟨databaseSize, 0, 0⟩
  pages := fun _ => .zeros
  overflowCells := fun _ => false
  allocatePageState := .start
  freePageState := .start
  dirtyPages := fun _ => false
  cachedPages := fun _ => false
  dbSize := databaseSize
  subjournal := fun _ => none

end Turso.Freelist
