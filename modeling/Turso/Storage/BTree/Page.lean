import Mathlib.Data.List.Nodup
import Turso.Storage.Cell

/-!
# B-trees on pages

A B-tree page as its readers see it: the type, the cells in pointer order, and the rightmost
pointer of an interior page.  How a cell lies in the bytes of its page is the subject of
`Cell.lean`; here a cell is its left child, meaningful on interior pages, and its payload.

`Tree` is a tree in a page store: a root and a height, all leaves being at the same depth.
`entries` is its content in order.  In a table all entries are on the leaves; in an index the
cells of interior pages are entries too, each between the subtree to its left and the rest.
-/

namespace Turso.BTree

open List

variable {Payload : Type}

structure PageCell (Payload : Type) where
  leftChild : ℕ
  payload : Payload

structure Page (Payload : Type) where
  pageType : PageType
  cells : List (PageCell Payload)
  rightmost : ℕ

/-- The pages by number. -/
abbrev Store (Payload : Type) := ℕ → Page Payload

namespace Page

variable (page : Page Payload)

/-- `cell_count`. -/
def cellCount : ℕ := page.cells.length

/-- `is_leaf`. -/
def isLeaf : Bool :=
  page.pageType = .indexLeaf || page.pageType = .tableLeaf

/-- `is_index`. -/
def isIndex : Bool :=
  page.pageType = .indexLeaf || page.pageType = .indexInterior

/-- `is_table`. -/
def isTable : Bool :=
  page.pageType = .tableLeaf || page.pageType = .tableInterior

/-- `rightmost_pointer`: only interior pages have one. -/
def rightmostPointer : Option ℕ :=
  match page.pageType with
  | .indexInterior | .tableInterior => some page.rightmost
  | .indexLeaf | .tableLeaf => none

/-- `cell_interior_read_left_child_page`. -/
def leftChildPage (index : ℕ) : Option ℕ :=
  page.cells[index]?.map PageCell.leftChild

/-- The child number `index`, the rightmost one after the left children of the cells. -/
def child (index : ℕ) : ℕ :=
  (page.leftChildPage index).getD page.rightmost

end Page

/-! ## The content in order -/

variable (isIndex : Bool)

/-- The cell of an interior page as an entry. -/
def divider (cell : PageCell Payload) : List Payload :=
  if isIndex then [cell.payload] else []

/-- The entries below some cells of an interior page and its rightmost pointer. -/
def walk (isIndex : Bool) (below : ℕ → List Payload) : List (PageCell Payload) → ℕ → List Payload
  | [], rightmost => below rightmost
  | cell :: rest, rightmost =>
    below cell.leftChild ++ (divider isIndex cell ++ walk isIndex below rest rightmost)

/-- The entries of a subtree, in order. -/
def entries (store : Store Payload) (isIndex : Bool) : ℕ → ℕ → List Payload
  | 0, id => (store id).cells.map PageCell.payload
  | height + 1, id =>
    walk isIndex (entries store isIndex height) (store id).cells (store id).rightmost

variable (below : ℕ → List Payload) (page : Page Payload)

/-- The entries of an interior page after its child number `index`. -/
def behind (index : ℕ) : List Payload :=
  match page.cells.drop index with
  | [] => []
  | cell :: rest => divider isIndex cell ++ walk isIndex below rest page.rightmost

/-- The entries of an interior page before its child number `index`. -/
def ahead (index : ℕ) : List Payload :=
  (page.cells.take index).flatMap fun cell => below cell.leftChild ++ divider isIndex cell

/-! ## Well-formed trees -/

/-- The type of the pages at a height. -/
def typeAt : ℕ → PageType
  | 0 => if isIndex then .indexLeaf else .tableLeaf
  | _ + 1 => if isIndex then .indexInterior else .tableInterior

/-- The pages of a subtree. -/
def pages (store : Store Payload) : ℕ → ℕ → List ℕ
  | 0, id => [id]
  | height + 1, id =>
    id :: (range ((store id).cellCount + 1)).flatMap fun index =>
      pages store height ((store id).child index)

/-- Pages have the type of their height and a cell count that fits its field, and no leaf
below an interior page is empty. -/
def WellFormed (store : Store Payload) (isIndex : Bool) : ℕ → ℕ → Prop
  | 0, id => (store id).pageType = typeAt isIndex 0 ∧ (store id).cellCount ≤ 65535
  | height + 1, id =>
    ((store id).pageType = typeAt isIndex (height + 1) ∧ (store id).cellCount ≤ 65535) ∧
      ∀ index ≤ (store id).cellCount,
        WellFormed store isIndex height ((store id).child index) ∧
          (height = 0 → (store ((store id).child index)).cells ≠ [])

/-- `BTCURSOR_MAX_DEPTH`. -/
def maxDepth : ℕ := 20

/-- A well-formed B-tree, of a depth that cursors support. -/
structure Tree (Payload : Type) where
  store : Store Payload
  isIndex : Bool
  root : ℕ
  height : ℕ
  wellFormed : WellFormed store isIndex height root
  nodup : (pages store height root).Nodup
  height_lt : height < maxDepth

/-- The records of the tree, in order. -/
def Tree.records (tree : Tree Payload) : List Payload :=
  entries tree.store tree.isIndex tree.height tree.root

/-! ## Facts about pages -/

section Facts
variable {st : Store Payload} {isIndex : Bool} {height id index : ℕ} {p : Page Payload}
  {below : ℕ → List Payload}

theorem WellFormed.pageType_eq (h : WellFormed st isIndex height id) :
    (st id).pageType = typeAt isIndex height := by
  cases height with
  | zero => exact h.1
  | succ height => exact h.1.1

theorem WellFormed.cellCount_le (h : WellFormed st isIndex height id) :
    (st id).cellCount ≤ 65535 := by
  cases height with
  | zero => exact h.2
  | succ height => exact h.1.2

theorem WellFormed.child (h : WellFormed st isIndex (height + 1) id)
    (hi : index ≤ (st id).cellCount) :
    WellFormed st isIndex height ((st id).child index) :=
  (h.2 index hi).1

theorem WellFormed.isIndex_eq (h : WellFormed st isIndex height id) :
    (st id).isIndex = isIndex := by
  rw [Page.isIndex, h.pageType_eq]
  cases height <;> cases isIndex <;> rfl

theorem WellFormed.not_index_upwards (h : WellFormed st isIndex height id) {upwards : Bool}
    (hupwards : isIndex = false ∨ upwards = false) :
    ¬ ((st id).isIndex = true ∧ upwards = true) := by
  rw [h.isIndex_eq]
  rintro ⟨rfl, rfl⟩
  simp at hupwards

theorem WellFormed.isLeaf_zero (h : WellFormed st isIndex 0 id) : (st id).isLeaf = true := by
  rw [Page.isLeaf, h.pageType_eq]
  cases isIndex <;> rfl

theorem WellFormed.isLeaf_succ (h : WellFormed st isIndex (height + 1) id) :
    (st id).isLeaf = false := by
  rw [Page.isLeaf, h.pageType_eq]
  cases isIndex <;> rfl

theorem WellFormed.rightmostPointer_zero (h : WellFormed st isIndex 0 id) :
    (st id).rightmostPointer = none := by
  rw [Page.rightmostPointer, h.pageType_eq]
  cases isIndex <;> rfl

theorem WellFormed.rightmostPointer_succ (h : WellFormed st isIndex (height + 1) id) :
    (st id).rightmostPointer = some (st id).rightmost := by
  rw [Page.rightmostPointer, h.pageType_eq]
  cases isIndex <;> rfl

theorem Page.leftChildPage_of_lt (hi : index < p.cellCount) :
    p.leftChildPage index = some (p.child index) := by
  have hcell : p.cells[index]? = some (p.cells.get ⟨index, hi⟩) := getElem?_eq_getElem hi
  simp [child, leftChildPage, hcell]

theorem Page.child_cellCount : p.child p.cellCount = p.rightmost := by
  simp [child, leftChildPage, cellCount]

/-- The walk from a child on is that child and what is behind it. -/
theorem walk_drop (hindex : index ≤ p.cellCount) :
    walk isIndex below (p.cells.drop index) p.rightmost =
      below (p.child index) ++ behind isIndex below p index := by
  rcases hindex.eq_or_lt with rfl | hlt
  · rw [Page.child_cellCount, behind, Page.cellCount, drop_length]
    simp [walk]
  · have hdrop : p.cells.drop index = p.cells.get ⟨index, hlt⟩ ::
        p.cells.drop (index + 1) := drop_eq_getElem_cons hlt
    have hchild : p.child index = (p.cells.get ⟨index, hlt⟩).leftChild := by
      rw [Page.child, Page.leftChildPage, getElem?_eq_getElem hlt]
      rfl
    rw [behind, hdrop, walk, hchild]

theorem behind_of_lt (hi : index < p.cellCount) :
    behind isIndex below p index = divider isIndex (p.cells.get ⟨index, hi⟩) ++
      walk isIndex below (p.cells.drop (index + 1)) p.rightmost := by
  rw [behind, drop_eq_getElem_cons hi]
  rfl

theorem ahead_zero : ahead isIndex below p 0 = [] := rfl

theorem ahead_succ (hi : index < p.cellCount) :
    ahead isIndex below p (index + 1) = ahead isIndex below p index ++
      (below (p.child index) ++ divider isIndex (p.cells.get ⟨index, hi⟩)) := by
  have hchild : p.child index = (p.cells.get ⟨index, hi⟩).leftChild := by
    rw [Page.child, Page.leftChildPage, getElem?_eq_getElem hi]
    rfl
  have htake : p.cells.take (index + 1) = p.cells.take index ++ [p.cells.get ⟨index, hi⟩] :=
    (take_append_getElem hi).symm
  rw [ahead, htake, flatMap_append, flatMap_singleton, hchild]
  rfl

theorem behind_cellCount : behind isIndex below p p.cellCount = [] := by
  rw [behind, Page.cellCount, drop_length]

end Facts

end Turso.BTree
