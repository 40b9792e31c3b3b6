import Turso.Storage.Error
import Mathlib.Algebra.Order.Group.Nat
import Mathlib.Tactic.Common

/-!
# Page sizes and reserved page numbers

The page size of a database is a power of two from 512 to 65536, and the usable
part of a page is what the reserved bytes at its end leave over, at least 480
bytes.  Two kinds of page number are never handed to a b-tree: the page that
contains the pending byte, and, in a database with full auto-vacuum, the
pointer-map pages.

`isPtrmapPage_pendingBytePage_succ` is the one arithmetical coincidence the page
allocator relies on without checking it: the page after the pending-byte page is
never a pointer-map page, for any page size.
-/

namespace Turso

open List Nat

/-- `PageSize`: a valid page size in bytes. -/
structure PageSize where
  get : ℕ
  valid : get ∈ [512, 1024, 2048, 4096, 8192, 16384, 32768, 65536]
  deriving DecidableEq

namespace PageSize

/-- `PageSize::new`. -/
def new (size : ℕ) : Option PageSize :=
  if h : size ∈ [512, 1024, 2048, 4096, 8192, 16384, 32768, 65536] then some ⟨size, h⟩ else none

/-- `PageSize::MIN_USABLE_SPACE`. -/
def minUsableSpace : ℕ := 480

variable (size : PageSize)

/-- `PageSize::has_valid_reserved_space`. -/
def hasValidReservedSpace (reservedSpace : ℕ) : Bool :=
  minUsableSpace ≤ size.get - reservedSpace

theorem le_get : 512 ≤ size.get := by
  have := size.valid
  simp only [mem_cons, not_mem_nil, or_false] at this
  omega

theorem get_le : size.get ≤ 65536 := by
  have := size.valid
  simp only [mem_cons, not_mem_nil, or_false] at this
  omega

end PageSize

/-- The page layout of an open database: its page size and the bytes reserved at
the end of every page. -/
structure PageLayout where
  pageSize : PageSize
  reservedSpace : ℕ
  reserved_valid : pageSize.hasValidReservedSpace reservedSpace = true

namespace PageLayout

def smallest : PageLayout := ⟨⟨512, by decide⟩, 0, by decide⟩

variable (layout : PageLayout)

/-- `DatabaseHeader::usable_space`. -/
def usableSpace : ℕ := layout.pageSize.get - layout.reservedSpace

theorem le_usableSpace : 480 ≤ layout.usableSpace := of_decide_eq_true layout.reserved_valid

theorem usableSpace_le : layout.usableSpace ≤ 65536 :=
  le_trans (sub_le _ _) layout.pageSize.get_le

end PageLayout

/-! ## Reserved page numbers -/

/-- `PENDING_BYTE`: the byte offset of the page no b-tree ever uses. -/
def pendingByte : ℕ := 0x40000000

variable (size : PageSize)

/-- `Pager::pending_byte_page_id`. -/
def pendingBytePageId : ℕ := pendingByte / size.get + 1

/-- `FIRST_PTRMAP_PAGE_NO`. -/
def firstPtrmapPageNo : ℕ := 2

/-- `PTRMAP_ENTRY_SIZE`. -/
def ptrmapEntrySize : ℕ := 5

/-- `ptrmap_page_cycle_length`: one pointer-map page and the pages it maps. -/
def ptrmapPageCycleLength (pageSize : ℕ) : ℕ := pageSize / ptrmapEntrySize + 1

/-- `get_ptrmap_page_no_for_db_page`. -/
def getPtrmapPageNoForDbPage (page : ℕ) (pageSize : ℕ) : ℕ :=
  (page - firstPtrmapPageNo) / ptrmapPageCycleLength pageSize * ptrmapPageCycleLength pageSize +
    firstPtrmapPageNo

/-- `is_ptrmap_page`. -/
def isPtrmapPage (page : ℕ) (pageSize : ℕ) : Bool :=
  if page = 1 then false
  else if page = firstPtrmapPageNo then true
  else getPtrmapPageNoForDbPage page pageSize = page

theorem isPtrmapPage_iff {p : ℕ} {pageSize : ℕ} (hp : 2 ≤ p) :
    isPtrmapPage p pageSize = true ↔ ptrmapPageCycleLength pageSize ∣ p - 2 := by
  unfold isPtrmapPage getPtrmapPageNoForDbPage firstPtrmapPageNo
  rw [if_neg (by omega)]
  have hdvd : ∀ cycle : ℕ, (p - 2) / cycle * cycle + 2 = p ↔ cycle ∣ p - 2 := by
    intro cycle
    constructor
    · intro heq
      exact ⟨(p - 2) / cycle, by rw [Nat.mul_comm]; omega⟩
    · intro hdvd
      rw [Nat.div_mul_cancel hdvd]
      omega
  by_cases ha : p = 2
  · simp [ha]
  · rw [if_neg ha, decide_eq_true_iff]
    exact hdvd _

/-- Two pointer-map pages are at least one cycle apart. -/
theorem not_isPtrmapPage_add {p : ℕ} {pageSize : ℕ} (hp : 2 ≤ p)
    (hptrmap : isPtrmapPage p pageSize = true) {step : ℕ} (hpos : 0 < step)
    (hstep : step < ptrmapPageCycleLength pageSize) :
    isPtrmapPage (p + step) pageSize = false := by
  rw [isPtrmapPage_iff hp] at hptrmap
  rw [Bool.eq_false_iff, Ne, isPtrmapPage_iff (by omega)]
  intro hnx
  have hdiff : ptrmapPageCycleLength pageSize ∣ step := by
    rw [show p + step - 2 = p - 2 + step by omega] at hnx
    exact (Nat.dvd_add_right hptrmap).mp hnx
  exact absurd (Nat.le_of_dvd hpos hdiff) (by omega)

/-- The page after the pending-byte page never is a pointer-map page. -/
theorem isPtrmapPage_pendingBytePage_succ :
    isPtrmapPage (pendingBytePageId size + 1) size.get = false := by
  have hvalid := size.valid
  unfold pendingBytePageId
  generalize size.get = get at hvalid
  simp only [mem_cons, not_mem_nil, or_false] at hvalid
  rcases hvalid with rfl | rfl | rfl | rfl | rfl | rfl | rfl | rfl <;> decide

/-! ## Entries of the pointer map -/

/-- `entries_per_ptrmap_page`. -/
def entriesPerPtrmapPage (pageSize : ℕ) : ℕ := pageSize / ptrmapEntrySize

/-- `get_ptrmap_offset_in_page`; both ends of the range are sums of `u32`. -/
def getPtrmapOffsetInPage (page ptrmapPage pageSize : ℕ) : Except LimboError ℕ :=
  let first := ptrmapPage + 1
  let last := ptrmapPage + entriesPerPtrmapPage pageSize
  if 2 ^ 32 ≤ first ∨ 2 ^ 32 ≤ last then .error .overflow
  else if page < first ∨ last < page then
    .error (.internalError (s!"Page {page} is not mapped by the data page range " ++
      s!"[{first}, {last}] of ptrmap page {ptrmapPage}"))
  else if isPtrmapPage page pageSize then
    .error (.internalError
      s!"Page {page} is a pointer map page and should not have an entry calculated this way.")
  else .ok ((page - first) * ptrmapEntrySize)

/-- `page` is a data page that the pointer-map page `ptrmap` has the entry of. -/
def DataPageOf (ptrmap pageSize page : ℕ) : Prop :=
  1 < page ∧ isPtrmapPage page pageSize = false ∧ getPtrmapPageNoForDbPage page pageSize = ptrmap

section
variable {ptrmap pageSize page : ℕ}

theorem DataPageOf.bounds (h : DataPageOf ptrmap pageSize page) :
    ptrmap < page ∧ page ≤ ptrmap + entriesPerPtrmapPage pageSize := by
  obtain ⟨hpage, hdata, rfl⟩ := h
  rw [Bool.eq_false_iff, Ne, isPtrmapPage_iff hpage, dvd_iff_mod_eq_zero] at hdata
  have hdiv := div_add_mod' (page - 2) (ptrmapPageCycleLength pageSize)
  have hmod : _ < entriesPerPtrmapPage pageSize + 1 := mod_lt (page - 2) (succ_pos _)
  change _ % ptrmapPageCycleLength pageSize < _ at hmod
  unfold getPtrmapPageNoForDbPage firstPtrmapPageNo
  omega

theorem DataPageOf.offset (h : DataPageOf ptrmap pageSize page)
    (hgroup : ptrmap + entriesPerPtrmapPage pageSize < 2 ^ 32) :
    getPtrmapOffsetInPage page ptrmap pageSize =
      .ok ((page - (ptrmap + 1)) * ptrmapEntrySize) := by
  have hbounds := h.bounds
  simp only [getPtrmapOffsetInPage]
  rw [if_neg (by omega), if_neg (by omega), h.2.1, if_neg Bool.false_ne_true]

/-- A data page is in an earlier pointer-map page.  Its entry is inside that page, at a multiple of the
entry size, and its own, exactly if the page numbers of the group have 32 bits. -/
theorem ptrmap_placement (h : DataPageOf ptrmap size.get page) :
    ptrmap < page ∧ isPtrmapPage ptrmap size.get = true ∧
    ((∃ slot, getPtrmapOffsetInPage page ptrmap size.get = .ok (slot * ptrmapEntrySize) ∧
      (slot + 1) * ptrmapEntrySize ≤ size.get ∧
      ∀ other, DataPageOf ptrmap size.get other →
        getPtrmapOffsetInPage other ptrmap size.get = .ok (slot * ptrmapEntrySize) →
        other = page) ↔ ptrmap + entriesPerPtrmapPage size.get < 2 ^ 32) := by
  have hbounds := h.bounds
  refine ⟨hbounds.1, ?_, fun ⟨slot, hslot, _⟩ => ?_, fun hgroup => ⟨_, h.offset hgroup, ?_, ?_⟩⟩
  · obtain ⟨-, -, rfl⟩ := h
    exact (isPtrmapPage_iff (Nat.le_add_left ..)).2 (Nat.dvd_mul_left ..)
  · by_contra hlast
    rw [getPtrmapOffsetInPage, if_pos (.inr (not_lt.mp hlast))] at hslot
    cases hslot
  · calc (page - (ptrmap + 1) + 1) * ptrmapEntrySize
        ≤ entriesPerPtrmapPage size.get * ptrmapEntrySize := Nat.mul_le_mul_right _ (by omega)
      _ ≤ size.get := Nat.div_mul_le_self _ _
  · intro other hother hslot
    have hbounds' := hother.bounds
    rw [hother.offset hgroup, Except.ok.injEq] at hslot
    have := Nat.eq_of_mul_eq_mul_right (by decide : 0 < ptrmapEntrySize) hslot
    omega

theorem ptrmap_placement_three : DataPageOf 2 512 3 ∧ isPtrmapPage 2 512 = true :=
  have h : DataPageOf 2 512 3 := ⟨by decide, rfl, rfl⟩
  ⟨h, (ptrmap_placement ⟨512, by decide⟩ h).2.1⟩

/-- The last group of pages of 4096 bytes goes beyond 32 bits. -/
theorem ptrmap_last_group_overflows : DataPageOf 4294966482 4096 4294967295 ∧
    getPtrmapOffsetInPage 4294967295 4294966482 4096 = .error .overflow := by
  exact ⟨⟨by decide, rfl, rfl⟩, rfl⟩

end

theorem four_le_ptrmapPageCycleLength : 4 ≤ ptrmapPageCycleLength size.get := by
  have := size.le_get
  unfold ptrmapPageCycleLength ptrmapEntrySize
  omega

end Turso
