import Turso.Storage.Freelist.Model
import Mathlib.Data.Set.Basic

/-!
# The trunk chain

`ChainFrom layout pages trunk chain` reads the freelist off the page contents:
`chain` lists the trunk pages reachable from `trunk`, each with the leaf pages
recorded on it.  It depends on the contents of the trunk pages only
(`ChainFrom.congr`), which is why writing to any other page leaves the freelist
as it is.  The remaining lemmas say how the chain changes under the four ways
the allocator rewrites a trunk page.
-/

namespace Turso.Freelist

open List ByteBuffer

/-- `buf` is a trunk page that points to `next` and lists `leaves`. -/
structure IsTrunk (layout : PageLayout) (buf : ByteBuffer) (next : ℕ) (leaves : List ℕ) :
    Prop where
  next_eq : buf.readU32 trunkOffsetNextTrunkPtr = next
  count_eq : buf.readU32 trunkOffsetLeafCount = leaves.length
  leaf_eq : ∀ (i : ℕ) (hi : i < leaves.length),
    buf.readU32 (trunkOffsetFirstLeafPtr + i * leafPtrSize) = leaves[i]
  count_le : leaves.length ≤ maxFreeListEntries layout

/-- The trunk pages from `trunk` on, each with its leaves. -/
def ChainFrom (layout : PageLayout) (pages : ℕ → ByteBuffer) : ℕ → List (ℕ × List ℕ) → Prop
  | trunk, [] => trunk = 0
  | trunk, (page, leaves) :: rest =>
    trunk = page ∧ page ≠ 0 ∧
      ∃ next, IsTrunk layout (pages page) next leaves ∧ ChainFrom layout pages next rest

/-- All pages a chain lists, as trunk or as leaf. -/
def listed (chain : List (ℕ × List ℕ)) : List ℕ := chain.flatMap fun entry => entry.1 :: entry.2

variable {layout : PageLayout} {pages pages' : ℕ → ByteBuffer} {buf : ByteBuffer}
  {trunk next p leaf : ℕ} {leaves : List ℕ} {chain rest : List (ℕ × List ℕ)}

@[simp] theorem listed_nil : listed [] = [] := rfl

@[simp] theorem listed_cons (e : ℕ × List ℕ) : listed (e :: rest) = e.1 :: e.2 ++ listed rest := by
  simp [listed]

theorem trunk_mem_listed {e : ℕ × List ℕ} (he : e ∈ chain) : e.1 ∈ listed chain :=
  mem_flatMap.mpr ⟨e, he, mem_cons_self ..⟩

section
variable (hch : ChainFrom layout pages trunk chain)
include hch

/-- The chain depends only on the trunk pages. -/
theorem ChainFrom.congr (heq : ∀ e ∈ chain, pages' e.1 = pages e.1) :
    ChainFrom layout pages' trunk chain := by
  induction chain generalizing trunk with
  | nil => exact hch
  | cons e rest ih =>
    obtain ⟨p, leaves⟩ := e
    obtain ⟨htrunk, hp, next, hbuf, hrest⟩ := hch
    refine ⟨htrunk, hp, next, ?_, ih hrest fun x hx =>
      heq x (mem_cons_of_mem _ hx)⟩
    rw [heq (p, leaves) (mem_cons_self ..)]
    exact hbuf

/-- Writing to a page the freelist does not list leaves the chain as it is. -/
theorem ChainFrom.update_of_notMem (hp : p ∉ listed chain) (c : ByteBuffer) :
    ChainFrom layout (Function.update pages p c) trunk chain := by
  refine hch.congr fun e he => ?_
  rw [Function.update_of_ne]
  rintro rfl
  exact hp (trunk_mem_listed he)

/-- A chain that starts somewhere has a first trunk. -/
theorem ChainFrom.exists_cons (htrunk : trunk ≠ 0) :
    ∃ leaves rest, chain = (trunk, leaves) :: rest := by
  cases chain with
  | nil => exact absurd hch htrunk
  | cons e rest =>
    obtain ⟨p, leaves⟩ := e
    obtain ⟨rfl, -⟩ := hch
    exact ⟨leaves, rest, rfl⟩

end

/-! ## The rewrites of a trunk page -/

/-- Taking the first leaf shifts the others down by one place. -/
theorem IsTrunk.shift (hbuf : IsTrunk layout buf next (leaf :: leaves)) : IsTrunk layout
      ((buf.copyWithin (trunkOffsetFirstLeafPtr + leafPtrSize) (leaves.length * leafPtrSize)
        trunkOffsetFirstLeafPtr).writeU32 trunkOffsetLeafCount leaves.length)
      next leaves := by
  have hbound : leaves.length < 4294967296 := by
    have := buf.readU32_lt trunkOffsetLeafCount
    rw [hbuf.count_eq, length_cons] at this
    omega
  refine ⟨?_, readU32_writeU32 _ _ hbound, ?_, ?_⟩
  · rw [readU32_writeU32_disjoint _ (by decide), copyWithin,
      readU32_write_disjoint _ (by simp [trunkOffsetNextTrunkPtr, trunkOffsetFirstLeafPtr])]
    exact hbuf.next_eq
  · intro i hi
    have hleaf := hbuf.leaf_eq (i + 1) (by simpa using hi)
    rw [readU32_writeU32_disjoint _
        (by simp only [trunkOffsetFirstLeafPtr, trunkOffsetLeafCount, leafPtrSize]; omega),
      readU32_copyWithin _ (Nat.le_add_right _ _)
        (by simp only [trunkOffsetFirstLeafPtr, leafPtrSize]; omega)]
    rw [getElem_cons_succ] at hleaf
    rw [← hleaf]
    congr 1
    simp only [trunkOffsetFirstLeafPtr, leafPtrSize]
    omega
  · exact (Nat.le_succ _).trans hbuf.count_le

theorem IsTrunk.push (hbuf : IsTrunk layout buf next leaves) (hp : p < pageNumberLimit)
    (hroom : leaves.length < maxFreeListEntries layout) :
    IsTrunk layout ((buf.writeU32 trunkOffsetLeafCount (leaves.length + 1)).writeU32
        (trunkOffsetFirstLeafPtr + leaves.length * leafPtrSize) p)
      next (leaves ++ [p]) := by
  have hbound : leaves.length + 1 < 4294967296 := by
    have := layout.usableSpace_le
    unfold maxFreeListEntries at hroom
    simp only [leafPtrSize, reservedSlots] at hroom
    omega
  refine ⟨?_, ?_, ?_, ?_⟩
  · rw [readU32_writeU32_disjoint _
        (by simp only [trunkOffsetNextTrunkPtr, trunkOffsetFirstLeafPtr]; omega),
      readU32_writeU32_disjoint _ (by decide)]
    exact hbuf.next_eq
  · rw [readU32_writeU32_disjoint _
        (by simp only [trunkOffsetLeafCount, trunkOffsetFirstLeafPtr]; omega),
      readU32_writeU32 _ _ hbound]
    simp
  · intro i hi
    rw [length_append, length_singleton] at hi
    rcases Nat.lt_succ_iff_lt_or_eq.mp hi with hlt | rfl
    · rw [readU32_writeU32_disjoint _ (by simp only [trunkOffsetFirstLeafPtr, leafPtrSize]; omega),
        readU32_writeU32_disjoint _
          (by simp only [trunkOffsetFirstLeafPtr, trunkOffsetLeafCount]; omega),
        getElem_append_left hlt]
      exact hbuf.leaf_eq i hlt
    · rw [readU32_writeU32 _ _ hp]
      simp
  · rw [length_append]
    exact hroom

theorem isTrunk_new (buf : ByteBuffer) (hnx : next < pageNumberLimit) : IsTrunk layout
      ((buf.writeU32 trunkOffsetNextTrunkPtr next).writeU32 trunkOffsetLeafCount 0) next [] := by
  refine ⟨?_, readU32_writeU32 _ _ (by decide), fun i hi => absurd hi (Nat.not_lt_zero i),
    Nat.zero_le _⟩
  rw [readU32_writeU32_disjoint _ (by decide), readU32_writeU32 _ _ hnx]

end Turso.Freelist
