import Turso.Foundation.ByteBuffer
import Turso.Storage.PageSize
import Turso.Storage.Varint

/-!
# Cells of a B-tree page

The bytes of a cell and `read_btree_cell` (`core/storage/sqlite3_ondisk.rs`), with
the thresholds that decide how much of a payload stays on the page
(`core/storage/btree.rs`).  A cell is parsed from the bytes of its page at a given
offset; the payload that comes back is its local part, and the number of the first
overflow page when there is more.

`localSize_eq_some` collects what the arithmetic of the thresholds gives: a payload
that spills is longer than what the page keeps of it, pointer included, so that the
reader takes the overflow branch exactly when the writer did.
-/

namespace Turso

/-- `PageType`. -/
inductive PageType where
  | indexInterior
  | tableInterior
  | indexLeaf
  | tableLeaf
  deriving DecidableEq, Repr

/-- `payload_overflow_threshold_max`. -/
def payloadOverflowThresholdMax (pageType : PageType) (usableSpace : ℕ) : ℕ :=
  match pageType with
  | .indexInterior | .indexLeaf => (usableSpace - 12) * 64 / 255 - 23
  | .tableInterior | .tableLeaf => usableSpace - 35

/-- `payload_overflow_threshold_min`: the same for all page types. -/
def payloadOverflowThresholdMin (_pageType : PageType) (usableSpace : ℕ) : ℕ :=
  (usableSpace - 12) * 32 / 255 - 23

/-- `payload_overflows`: how many bytes of a payload that does not fit are kept on
the page, the pointer to the first overflow page included. -/
def payloadOverflows (payloadSize maxLocalBytes minLocalBytes usableSize : ℕ) : Option ℕ :=
  if payloadSize ≤ maxLocalBytes then none
  else
    let spaceLeft := minLocalBytes + (payloadSize - minLocalBytes) % (usableSize - 4)
    some ((if spaceLeft > maxLocalBytes then minLocalBytes else spaceLeft) + 4)

/-- `payload_overflows` at the thresholds of a page type. -/
def localSize (pageType : PageType) (usableSpace payloadSize : ℕ) : Option ℕ :=
  payloadOverflows payloadSize (payloadOverflowThresholdMax pageType usableSpace)
    (payloadOverflowThresholdMin pageType usableSpace) usableSpace

/-- `BTreeCell`.  Payloads are the local part; `payloadSize` is the whole. -/
inductive BTreeCell where
  | tableInteriorCell (leftChildPage : ℕ) (rowid : Int64)
  | tableLeafCell (rowid : Int64) (payload : List UInt8) (payloadSize : ℕ)
      (firstOverflowPage : Option ℕ)
  | indexInteriorCell (leftChildPage : ℕ) (payload : List UInt8) (payloadSize : ℕ)
      (firstOverflowPage : Option ℕ)
  | indexLeafCell (payload : List UInt8) (payloadSize : ℕ) (firstOverflowPage : Option ℕ)
  deriving DecidableEq, Repr

/-- `read_payload`. -/
def readPayload (unread : List UInt8) (payloadSize : ℕ) :
    Except LimboError (List UInt8 × Option ℕ) :=
  let cellLen := unread.length
  if payloadSize ≤ cellLen then .ok (unread.take payloadSize, none)
  else if cellLen < 4 then
    .error (.corrupt s!"overflow cell too small: {cellLen} bytes, need at least 4")
  else
    .ok (unread.take (cellLen - 4), some (ByteBuffer.ofBytes (unread.drop (cellLen - 4))))

variable (page : List UInt8)

/-- `slice_in_bounds_or_corrupt!(page, pos..)`. -/
def sliceFrom (pos : ℕ) : Except LimboError (List UInt8) :=
  if pos ≤ page.length then .ok (page.drop pos)
  else .error (.corrupt s!"range {pos}.. out of bounds for buffer size {page.length}")

/-- The part of `read_btree_cell` that the three cells with a payload share: the
payload of `payloadSize` bytes that starts at `pos`. -/
def readLocalPayload (pageType : PageType) (pos payloadSize usableSize : ℕ) :
    Except LimboError (List UInt8 × Option ℕ) :=
  let toRead := (localSize pageType usableSize payloadSize).getD (page.length - pos)
  if pos + toRead ≤ page.length then readPayload ((page.drop pos).take toRead) payloadSize
  else
    .error (.corrupt
      s!"payload range {pos}..{pos + toRead} out of bounds for page size {page.length}")

/-- The left child pointer at the front of an interior cell. -/
def readLeftChildPage (pos : ℕ) : Except LimboError ℕ :=
  if pos + 4 ≤ page.length then .ok (ByteBuffer.ofBytes ((page.drop pos).take 4))
  else .error (.corrupt s!"cell offset {pos} out of bounds for page size {page.length}")

/-- `read_btree_cell`. -/
def readBtreeCell (pageType : PageType) (pos usableSize : ℕ) : Except LimboError BTreeCell := do
  match pageType with
  | .indexInterior =>
    let leftChildPage ← readLeftChildPage page pos
    let pos := pos + 4
    let (payloadSize, nr) ← readVarint (← sliceFrom page pos)
    let pos := pos + nr
    let (payload, firstOverflowPage) ← readLocalPayload page pageType pos payloadSize usableSize
    return .indexInteriorCell leftChildPage payload payloadSize firstOverflowPage
  | .tableInterior =>
    let leftChildPage ← readLeftChildPage page pos
    let pos := pos + 4
    let (rowid, _) ← readVarint (← sliceFrom page pos)
    return .tableInteriorCell leftChildPage (UInt64.ofNat rowid).toInt64
  | .indexLeaf =>
    let (payloadSize, nr) ← readVarint (← sliceFrom page pos)
    let pos := pos + nr
    let (payload, firstOverflowPage) ← readLocalPayload page pageType pos payloadSize usableSize
    return .indexLeafCell payload payloadSize firstOverflowPage
  | .tableLeaf =>
    let (payloadSize, nr) ← readVarint (← sliceFrom page pos)
    let pos := pos + nr
    let (rowid, nr) ← readVarint (← sliceFrom page pos)
    let pos := pos + nr
    let (payload, firstOverflowPage) ← readLocalPayload page pageType pos payloadSize usableSize
    return .tableLeafCell (UInt64.ofNat rowid).toInt64 payload payloadSize firstOverflowPage

/-! ## The thresholds -/

/-- A payload spills exactly when it exceeds the local maximum. -/
theorem localSize_eq_none_iff {pageType : PageType} {usableSpace payloadSize : ℕ} :
    localSize pageType usableSpace payloadSize = none ↔
      payloadSize ≤ payloadOverflowThresholdMax pageType usableSpace := by
  rw [localSize, payloadOverflows]
  split_ifs <;> simp [*]

theorem thresholdMin_add_four_le_max (layout : PageLayout) (pageType : PageType) :
    payloadOverflowThresholdMin pageType layout.usableSpace + 4 ≤
      payloadOverflowThresholdMax pageType layout.usableSpace := by
  have husable := layout.le_usableSpace
  cases pageType <;> simp only [payloadOverflowThresholdMin, payloadOverflowThresholdMax] <;> omega

/-- A spilling payload keeps something on the page, and less than all of it even with
the pointer counted in. -/
theorem localSize_eq_some {layout : PageLayout} {pageType : PageType} {payloadSize size : ℕ}
    (hsize : localSize pageType layout.usableSpace payloadSize = some size) :
    4 < size ∧ size < payloadSize ∧ size ≤ layout.usableSpace := by
  have hthresholds := thresholdMin_add_four_le_max layout pageType
  have husable := layout.le_usableSpace
  have hmin : 0 < payloadOverflowThresholdMin pageType layout.usableSpace := by
    rw [payloadOverflowThresholdMin]
    omega
  have hmax : payloadOverflowThresholdMax pageType layout.usableSpace + 35 ≤
      layout.usableSpace := by
    cases pageType <;> simp only [payloadOverflowThresholdMax] <;> omega
  rw [localSize, payloadOverflows] at hsize
  generalize payloadOverflowThresholdMax pageType layout.usableSpace = maxLocal at *
  generalize payloadOverflowThresholdMin pageType layout.usableSpace = minLocal at *
  split_ifs at hsize with hfits
  -- The part off the page is a whole number of overflow pages, or the local part is minimal.
  have hsplit := Nat.div_add_mod (payloadSize - minLocal) (layout.usableSpace - 4)
  generalize (payloadSize - minLocal) % (layout.usableSpace - 4) = remainder at *
  by_cases hbig : minLocal + remainder > maxLocal
  · simp only [if_pos hbig, Option.some.injEq] at hsize
    omega
  · simp only [if_neg hbig, Option.some.injEq] at hsize
    have hpages : 0 < (payloadSize - minLocal) / (layout.usableSpace - 4) := by
      by_contra hzero
      rw [Nat.eq_zero_of_not_pos hzero] at hsplit
      omega
    have hle := Nat.le_mul_of_pos_right (layout.usableSpace - 4) hpages
    omega

end Turso
