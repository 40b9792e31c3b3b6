import Turso.Storage.Freelist.Chain
import Mathlib.Data.List.Nodup
import Mathlib.Data.Set.Insert

/-!
# The partition into live and free pages

A page number from 2 to the database size is reserved (pending byte, pointer
map), live, or listed exactly once by the trunk chain.  `Partition` states this
for a given chain; `live` is not stored anywhere in the database, it is the set
of pages the callers hold.

Each lemma below moves one page across the partition: `extend` adds the page
past the end of the file, `take` hands out a listed page, and `give` takes one
back.  `newPage_spec` is where the reserved pages come in: between the old and
the new end of the file there are only reserved pages.
-/

namespace Turso.Freelist

variable (cfg : Config)

/-- The page numbers no b-tree may use. -/
def Reserved (page : ℕ) : Prop :=
  page = pendingBytePageId cfg.layout.pageSize ∨
    (cfg.autoVacuumMode = .full ∧ isPtrmapPage page cfg.layout.pageSize.get = true)

/-- A page number that is in the file and may be used. -/
def Usable (pager : Pager) (page : ℕ) : Prop :=
  2 ≤ page ∧ page ≤ pager.header.databaseSize ∧ ¬ Reserved cfg page

structure Partition (pager : Pager) (live : Set ℕ) (chain : List (ℕ × List ℕ)) : Prop where
  chain_from : ChainFrom cfg.layout pager.pages pager.header.freelistTrunkPage chain
  nodup : (listed chain).Nodup
  listed_usable : ∀ page ∈ listed chain, Usable cfg pager page
  live_usable : ∀ page ∈ live, Usable cfg pager page
  disjoint : ∀ page ∈ listed chain, page ∉ live
  cover : ∀ page, Usable cfg pager page → page ∈ live ∨ page ∈ listed chain
  clean : ∀ page ∈ listed chain, pager.overflowCells page = false
  size_pos : 1 ≤ pager.header.databaseSize
  size_lt : pager.header.databaseSize < pageNumberLimit

variable {cfg : Config} {pager pager' : Pager} {live : Set ℕ} {chain : List (ℕ × List ℕ)}
  {page : ℕ}

/-! ## The page past the end of the file -/

theorem nextIsPtrmap_iff (databaseSize : ℕ) :
    nextIsPtrmap cfg databaseSize = true ↔ cfg.autoVacuumMode = .full ∧
      isPtrmapPage (databaseSize + 1) cfg.layout.pageSize.get = true := by
  simp [nextIsPtrmap]

theorem not_reserved_pendingByte_succ {page : ℕ}
    (hpage : page = pendingBytePageId cfg.layout.pageSize + 1) : ¬ Reserved cfg page := by
  rintro (heq | ⟨-, hptrmap⟩)
  · omega
  · rw [hpage, isPtrmapPage_pendingBytePage_succ] at hptrmap
    exact absurd hptrmap (by decide)

/-- The page handed out by extending the file is not reserved, and every page
skipped on the way is. -/
theorem newPage_spec {databaseSize : ℕ} (hsize : 1 ≤ databaseSize) :
    databaseSize < newPage cfg (baseSize cfg databaseSize) ∧
      ¬ Reserved cfg (newPage cfg (baseSize cfg databaseSize)) ∧
      ∀ other, databaseSize < other → other < newPage cfg (baseSize cfg databaseSize) →
        Reserved cfg other := by
  unfold newPage baseSize
  by_cases hnx : nextIsPtrmap cfg databaseSize = true
  · obtain ⟨hfull, hptrmap⟩ := (nextIsPtrmap_iff databaseSize).mp hnx
    simp only [hnx, if_true]
    by_cases hpending : databaseSize + 1 + 1 = pendingBytePageId cfg.layout.pageSize
    · rw [if_pos hpending]
      refine ⟨by omega, not_reserved_pendingByte_succ (by omega), ?_⟩
      intro other hlow hhigh
      have hcases : other = databaseSize + 1 ∨ other = databaseSize + 1 + 1 := by omega
      rcases hcases with rfl | rfl
      · exact Or.inr ⟨hfull, hptrmap⟩
      · exact Or.inl hpending
    · rw [if_neg hpending]
      refine ⟨by omega, ?_, ?_⟩
      · have hcycle := four_le_ptrmapPageCycleLength cfg.layout.pageSize
        have hnot : isPtrmapPage (databaseSize + 1 + 1) cfg.layout.pageSize.get = false :=
          not_isPtrmapPage_add (by omega) hptrmap (by omega) (by omega)
        rintro (heq | ⟨-, hptrmap'⟩)
        · exact hpending heq
        · rw [hnot] at hptrmap'
          exact absurd hptrmap' (by decide)
      · intro other hlow hhigh
        have hother : other = databaseSize + 1 := by omega
        rw [hother]
        exact Or.inr ⟨hfull, hptrmap⟩
  · simp only [hnx, if_false, Bool.false_eq_true]
    by_cases hpending : databaseSize + 1 = pendingBytePageId cfg.layout.pageSize
    · rw [if_pos hpending]
      refine ⟨by omega, not_reserved_pendingByte_succ (by omega), ?_⟩
      intro other hlow hhigh
      have hother : other = databaseSize + 1 := by omega
      rw [hother]
      exact Or.inl hpending
    · rw [if_neg hpending]
      refine ⟨by omega, ?_, fun other hlow hhigh => absurd hlow (by omega)⟩
      rintro (heq | hptrmap')
      · exact hpending heq
      · exact hnx ((nextIsPtrmap_iff databaseSize).mpr hptrmap')

/-! ## Moving one page across the partition -/

section
variable (hpart : Partition cfg pager live chain)
include hpart

variable {chain' : List (ℕ × List ℕ)}

/-- The same pages, otherwise divided into live and free ones. -/
theorem Partition.redistribute {live' : Set ℕ}
    (hsize : pager'.header.databaseSize = pager.header.databaseSize)
    (hch : ChainFrom cfg.layout pager'.pages pager'.header.freelistTrunkPage chain')
    (hnodup : (listed chain').Nodup)
    (hsame : ∀ page, page ∈ live' ∨ page ∈ listed chain' ↔ page ∈ live ∨ page ∈ listed chain)
    (hdisjoint : ∀ page ∈ listed chain', page ∉ live')
    (hclean : ∀ page ∈ listed chain', pager'.overflowCells page = false) :
    Partition cfg pager' live' chain' := by
  have husable : ∀ page, Usable cfg pager' page ↔ Usable cfg pager page := by
    intro page
    unfold Usable
    rw [hsize]
  have hall : ∀ page, page ∈ live' ∨ page ∈ listed chain' → Usable cfg pager' page :=
    fun page hpage => (husable page).mpr
      (((hsame page).mp hpage).elim (hpart.live_usable page) (hpart.listed_usable page))
  exact ⟨hch, hnodup, fun page hpage => hall page (.inr hpage),
    fun page hpage => hall page (.inl hpage), hdisjoint,
    fun page hpage => (hsame page).mpr (hpart.cover page ((husable page).mp hpage)), hclean,
    hsize ▸ hpart.size_pos, hsize ▸ hpart.size_lt⟩

theorem Partition.notMem_listed_of_lt (hp : pager.header.databaseSize < page) :
    page ∉ listed chain :=
  fun hm => absurd (hpart.listed_usable page hm).2.1 (by omega)

section
variable (htrunk : pager'.header.freelistTrunkPage = pager.header.freelistTrunkPage)
  (hpages : ∀ page ∈ listed chain, pager'.pages page = pager.pages page)
  (hcells : ∀ page ∈ listed chain, pager'.overflowCells page = pager.overflowCells page)
include htrunk hpages hcells

/-- The partition does not see changes outside the chain's pages. -/
theorem Partition.congr (hheader : pager'.header.databaseSize = pager.header.databaseSize) :
    Partition cfg pager' live chain := by
  refine hpart.redistribute hheader ?_ hpart.nodup (fun _ => Iff.rfl) hpart.disjoint
    fun page hpage => (hcells page hpage).trans (hpart.clean page hpage)
  rw [htrunk]
  exact hpart.chain_from.congr fun e he => hpages _ (trunk_mem_listed he)

/-- Extending the file by an unreserved page, over reserved ones. -/
theorem Partition.extend {newSize : ℕ} (hnew : pager'.header.databaseSize = newSize)
    (hsize : pager.header.databaseSize < newSize) (hlimit : newSize < pageNumberLimit)
    (hfree : ¬ Reserved cfg newSize)
    (hskipped : ∀ x, pager.header.databaseSize < x → x < newSize → Reserved cfg x) :
    newSize ∉ live ∧ Partition cfg pager' (insert newSize live) chain := by
  have husable : ∀ page, Usable cfg pager page → Usable cfg pager' page := by
    intro page ⟨hlow, hhigh, hres⟩
    exact ⟨hlow, by omega, hres⟩
  have hpos := hpart.size_pos
  refine ⟨fun hm => absurd (hpart.live_usable _ hm).2.1 (by omega), ?_⟩
  refine ⟨?_, hpart.nodup, fun page hpage => husable page (hpart.listed_usable page hpage), ?_,
    ?_, ?_, ?_, by omega, by omega⟩
  · rw [htrunk]
    exact hpart.chain_from.congr fun e he => hpages _ (trunk_mem_listed he)
  · rintro page (rfl | hpage)
    · exact ⟨by omega, by omega, hfree⟩
    · exact husable page (hpart.live_usable page hpage)
  · rintro page hpage (rfl | hlive)
    · exact hpart.notMem_listed_of_lt hsize hpage
    · exact hpart.disjoint page hpage hlive
  · rintro page ⟨hlow, hhigh, hres⟩
    rw [hnew] at hhigh
    rcases Nat.lt_or_ge pager.header.databaseSize page with hgt | hle
    · rcases Nat.lt_or_eq_of_le hhigh with hlt | rfl
      · exact absurd (hskipped page hgt hlt) hres
      · exact Or.inl (Set.mem_insert _ _)
    · rcases hpart.cover page ⟨hlow, hle, hres⟩ with hlive | hlisted
      · exact Or.inl (Set.mem_insert_of_mem _ hlive)
      · exact Or.inr hlisted
  · intro page hpage
    rw [hcells page hpage]
    exact hpart.clean page hpage

end

/-- Handing out one listed page.  What is left of the chain is `chain'`. -/
theorem Partition.take
    (hperm : (listed chain).Perm (page :: listed chain'))
    (hsize : pager'.header.databaseSize = pager.header.databaseSize)
    (hch : ChainFrom cfg.layout pager'.pages pager'.header.freelistTrunkPage chain')
    (hcells : ∀ other ∈ listed chain', pager'.overflowCells other = pager.overflowCells other) :
    page ∉ live ∧ Partition cfg pager' (insert page live) chain' := by
  obtain ⟨hnew, hnodup⟩ := List.nodup_cons.mp (hperm.nodup_iff.mp hpart.nodup)
  have hm : ∀ other, other ∈ listed chain ↔ other = page ∨ other ∈ listed chain' := by
    intro other
    rw [hperm.mem_iff, List.mem_cons]
  refine ⟨hpart.disjoint page ((hm page).mpr (Or.inl rfl)),
    hpart.redistribute hsize hch hnodup (fun other => ?_) ?_ fun other hother => ?_⟩
  · rw [Set.mem_insert_iff, hm]
    tauto
  · rintro other hother (rfl | hlive)
    · exact hnew hother
    · exact hpart.disjoint other ((hm other).mpr (Or.inr hother)) hlive
  · rw [hcells other hother]
    exact hpart.clean other ((hm other).mpr (Or.inr hother))

/-- Taking back one live page.  The chain with it is `chain'`. -/
theorem Partition.give (hlive : page ∈ live)
    (hperm : (listed chain').Perm (page :: listed chain))
    (hsize : pager'.header.databaseSize = pager.header.databaseSize)
    (hch : ChainFrom cfg.layout pager'.pages pager'.header.freelistTrunkPage chain')
    (hclean : pager.overflowCells page = false)
    (hcells : pager'.overflowCells = pager.overflowCells) :
    Partition cfg pager' (live \ {page}) chain' := by
  have hm : ∀ other, other ∈ listed chain' ↔ other = page ∨ other ∈ listed chain := by
    intro other
    rw [hperm.mem_iff, List.mem_cons]
  have hfresh : page ∉ listed chain := fun hm => hpart.disjoint page hm hlive
  refine hpart.redistribute hsize hch
    (hperm.nodup_iff.mpr (List.nodup_cons.mpr ⟨hfresh, hpart.nodup⟩)) (fun other => ?_) ?_ ?_
  · rw [Set.mem_sdiff, Set.mem_singleton_iff, hm]
    by_cases heq : other = page
    · simp [heq, hlive]
    · simp [heq]
  · rintro other hother ⟨hotherLive, hne⟩
    rcases (hm other).mp hother with rfl | hother
    · exact hne rfl
    · exact hpart.disjoint other hother hotherLive
  · intro other hother
    rw [hcells]
    rcases (hm other).mp hother with rfl | hother
    · exact hclean
    · exact hpart.clean other hother

end

end Turso.Freelist
