import Turso.Storage.Freelist.Partition

/-!
# Soundness of the freelist

A run of the pager is a sequence of calls of `allocate_page` and `free_page`,
each repeated until it no longer waits, with arbitrary changes to live pages in
between.  `Invariant` holds in every state of every run, also while a call is
waiting.  It has two parts: the partition of `Partition.lean`, and for each
state of the two machines what that state still knows about the freelist.

Only a live page may be freed.  `free_page` cannot check this; it does reject
page numbers outside the database, so those are allowed here.
-/

namespace Turso.Freelist

open Function List

variable {pager : Pager} {page : ℕ} {given : Bool}

/-! ## Runs -/

inductive Call where
  | allocate
  | free (pageId : ℕ) (given : Bool)
  deriving DecidableEq

/-- A pager in use: `live` are the pages its callers hold, `pending` is the call
that is waiting for I/O. -/
structure System where
  pager : Pager
  live : Set ℕ
  pending : Option Call

variable (sys : System)

/-- The system after a call of `allocate_page`. -/
def System.allocated : Outcome ℕ → System
  | (.ok (.done page), pager) => ⟨pager, insert page sys.live, none⟩
  | (.ok .io, pager) => ⟨pager, sys.live, some .allocate⟩
  | (.error _, pager) => ⟨pager, sys.live, none⟩

/-- The system after a call of `free_page`. -/
def System.freed (pageId : ℕ) (given : Bool) : Outcome Unit → System
  | (.ok (.done _), pager) => ⟨pager, sys.live \ {pageId}, none⟩
  | (.ok .io, pager) => ⟨pager, sys.live, some (.free pageId given)⟩
  | (.error _, pager) => ⟨pager, sys.live, none⟩

/-- Callers free only pages they hold, or numbers that `free_page` rejects. -/
def System.MayFree (pageId : ℕ) : Prop :=
  pageId ∈ sys.live ∨ pageId < 2 ∨ sys.pager.header.databaseSize < pageId

inductive Step (cfg : Config) : System → System → Prop
  | allocate (sys : System) (io : Io)
      (hready : sys.pending = none ∨ sys.pending = some .allocate) :
      Step cfg sys (sys.allocated (allocatePage cfg io sys.pager))
  | free (sys : System) (io : Io) (pageId : ℕ) (given : Bool)
      (hready : sys.pending = none ∨ sys.pending = some (.free pageId given))
      (hmay : sys.MayFree pageId) :
      Step cfg sys (sys.freed pageId given (freePage cfg io given pageId sys.pager))
  | modify (sys : System) (page : ℕ) (contents : ByteBuffer) (cells : Bool)
      (hready : sys.pending = none) (hlive : page ∈ sys.live) :
      Step cfg sys
        { sys with
          pager :=
            { sys.pager with
              pages := update sys.pager.pages page contents
              overflowCells := update sys.pager.overflowCells page cells } }

/-! ## The invariant -/

/-- What a waiting or failed `allocate_page` still knows. -/
def AllocateInvariant (cfg : Config) (sys : System) (chain : List (ℕ × List ℕ)) : Prop :=
  match sys.pager.allocatePageState with
  | .start => True
  | .allocateNewPage currentDbSize =>
    currentDbSize = baseSize cfg sys.pager.header.databaseSize
  | .searchAvailableFreeListLeaf trunkPage =>
    sys.pending = some .allocate ∧ trunkPage ≠ 0 ∧
      trunkPage = sys.pager.header.freelistTrunkPage
  | .reuseFreelistLeaf trunkPage leafPage numberOfFreelistLeaves =>
    sys.pending = some .allocate ∧ ∃ leaves rest,
      chain = (trunkPage, leafPage :: leaves) :: rest ∧
        numberOfFreelistLeaves = leaves.length + 1

/-- What a waiting `free_page` still knows. -/
def FreeInvariant : Prop :=
  match sys.pager.freePageState with
  | .start => True
  | .addToTrunk page =>
    (∃ given, sys.pending = some (.free page given)) ∧ page ∈ sys.live ∧
      sys.pager.overflowCells page = false ∧ sys.pager.header.freelistTrunkPage ≠ 0
  | .newTrunk page =>
    (∃ given, sys.pending = some (.free page given)) ∧ page ∈ sys.live ∧
      sys.pager.overflowCells page = false

/-- The number of pages that `free_page` has counted but not yet linked. -/
def inFlight : FreePageState → ℕ
  | .start => 0
  | .addToTrunk _ => 1
  | .newTrunk _ => 1

structure InvariantFor (cfg : Config) (sys : System) (chain : List (ℕ × List ℕ)) : Prop where
  partition : Partition cfg sys.pager sys.live chain
  count : sys.pager.header.freelistPages =
    (listed chain).length + inFlight sys.pager.freePageState
  allocate : AllocateInvariant cfg sys chain
  free : FreeInvariant sys

def Invariant (cfg : Config) (sys : System) : Prop := ∃ chain, InvariantFor cfg sys chain

variable {cfg : Config} {sys : System} {chain : List (ℕ × List ℕ)} {io : Io}

/-- While `allocate_page` may be called, no `free_page` is under way. -/
theorem InvariantFor.freePageState_eq (hinv : InvariantFor cfg sys chain)
    (hready : sys.pending = none ∨ sys.pending = some .allocate) :
    sys.pager.freePageState = .start := by
  have hfree := hinv.free
  unfold FreeInvariant at hfree
  cases hs : sys.pager.freePageState with
  | start => rfl
  | addToTrunk p | newTrunk p =>
    simp only [hs] at hfree
    obtain ⟨⟨given, hpending⟩, -⟩ := hfree
    rcases hready with h | h <;> simp [h] at hpending

/-- While no `allocate_page` is under way, its state needs no chain. -/
theorem AllocateInvariant.of_not_pending {live : Set ℕ} {pending : Option Call}
    {chain' : List (ℕ × List ℕ)} (hinv : AllocateInvariant cfg sys chain)
    (hnot : sys.pending ≠ some .allocate)
    (hs : pager.allocatePageState = sys.pager.allocatePageState)
    (hsize : pager.header.databaseSize = sys.pager.header.databaseSize) :
    AllocateInvariant cfg ⟨pager, live, pending⟩ chain' := by
  unfold AllocateInvariant at hinv ⊢
  rw [hs, hsize]
  cases hcases : sys.pager.allocatePageState with
  | start => trivial
  | allocateNewPage currentDbSize => simpa [hcases] using hinv
  | searchAvailableFreeListLeaf trunkPage
  | reuseFreelistLeaf trunkPage leafPage numberOfFreelistLeaves =>
    simp only [hcases] at hinv
    exact absurd hinv.1 hnot

/-- The invariant of a pager with no `free_page` under way. -/
theorem invariant_of_start {live : Set ℕ} {pending : Option Call}
    (hpart : Partition cfg pager live chain)
    (hn : pager.header.freelistPages = (listed chain).length)
    (hfree : pager.freePageState = .start)
    (hallocate : AllocateInvariant cfg ⟨pager, live, pending⟩ chain) :
    Invariant cfg ⟨pager, live, pending⟩ :=
  ⟨chain, hpart, by simp [hfree, inFlight, hn], hallocate, by simp [FreeInvariant, hfree]⟩

/-! ## `allocate_page` -/

/-- What is left to show after a call of `allocate_page`. -/
def AllocatePost (cfg : Config) (sys : System) (outcome : Outcome ℕ) : Prop :=
  (∀ page pager, outcome = (.ok (.done page), pager) → page ∉ sys.live) ∧
    Invariant cfg (sys.allocated outcome)

/-- A finished call leaves both machines at rest. -/
theorem allocatePost_done (chain' : List (ℕ × List ℕ))
    (hpart : page ∉ sys.live ∧ Partition cfg pager (insert page sys.live) chain')
    (hn : pager.header.freelistPages = (listed chain').length)
    (hallocate : pager.allocatePageState = .start) (hfree : pager.freePageState = .start) :
    AllocatePost cfg sys (.ok (.done page), pager) := by
  refine ⟨?_, invariant_of_start hpart.2 hn hfree (by simp [AllocateInvariant, hallocate])⟩
  intro x pager' heq
  simp only [Prod.mk.injEq, Except.ok.injEq, IOResult.done.injEq] at heq
  rw [← heq.1]
  exact hpart.1

theorem reuseFreelistLeaf_post {trunkPage leafPage : ℕ} {leaves : List ℕ} {rest : List (ℕ × List ℕ)}
    (hpart : Partition cfg pager sys.live ((trunkPage, leafPage :: leaves) :: rest))
    (hn : pager.header.freelistPages = (listed ((trunkPage, leafPage :: leaves) :: rest)).length)
    (hfree : pager.freePageState = .start) :
    AllocatePost cfg sys (reuseFreelistLeaf trunkPage leafPage (leaves.length + 1) pager) := by
  have hnodup := hpart.nodup
  simp only [listed_cons, cons_append, nodup_cons, mem_cons, mem_append, not_or] at hnodup
  obtain ⟨⟨hne, -, hrestTrunk⟩, ⟨-, hrestLeaf⟩, -⟩ := hnodup
  have hclean : pager.overflowCells leafPage = false := hpart.clean leafPage (by simp)
  obtain ⟨htrunk, htrunkPos, next, hbuf, hrest⟩ := hpart.chain_from
  have hx : ∀ e ∈ rest, e.1 ≠ trunkPage ∧ e.1 ≠ leafPage := by
    intro e he
    have hm := trunk_mem_listed he
    exact ⟨fun heq => hrestTrunk (heq ▸ hm), fun heq => hrestLeaf (heq ▸ hm)⟩
  unfold reuseFreelistLeaf
  rw [hclean, if_neg Bool.false_ne_true]
  refine allocatePost_done ((trunkPage, leaves) :: rest)
    (hpart.take ?_ rfl ?_ fun _ _ => rfl) ?_ rfl hfree
  · simp only [listed_cons, cons_append]
    exact Perm.swap _ _ _
  · refine ⟨htrunk, htrunkPos, next, ?_, hrest.congr fun e he => ?_⟩
    · dsimp only
      rw [update_self, Nat.add_sub_cancel, update_of_ne hne]
      exact hbuf.shift
    · dsimp only
      rw [update_of_ne (hx e he).1, update_of_ne (hx e he).2]
  · simp only [hn, listed_cons, length_append, length_cons]
    omega

section
variable (hpart : Partition cfg pager sys.live chain)
  (hn : pager.header.freelistPages = (listed chain).length)
  (hfree : pager.freePageState = .start)
include hpart hn hfree

theorem allocateNewPage_post {currentDbSize : ℕ}
    (hs : pager.allocatePageState = .allocateNewPage currentDbSize)
    (hcurrent : currentDbSize = baseSize cfg pager.header.databaseSize) :
    AllocatePost cfg sys (allocateNewPage cfg io currentDbSize pager) := by
  obtain ⟨hgt, hfreePage, hskipped⟩ := @newPage_spec cfg _ hpart.size_pos
  rw [← hcurrent] at hgt hfreePage hskipped
  -- the only page written besides the new one is the pending-byte page
  have hpages (page : ℕ) (hpage : page ∈ listed chain) :
      skipPendingBytePage cfg io currentDbSize pager.pages page = pager.pages page :=
    setUp_of_le ((hpart.listed_usable page hpage).2.1.trans (hcurrent ▸ le_baseSize))
  have herror : ∀ (err : LimboError) (pages : ℕ → ByteBuffer),
      (∀ page ∈ listed chain, pages page = pager.pages page) →
      AllocatePost cfg sys (.error err, { pager with pages := pages }) := by
    intro err pages hsame
    refine ⟨nofun, invariant_of_start (hpart.congr rfl hsame (fun _ _ => rfl) rfl) hn hfree ?_⟩
    simp [AllocateInvariant, hs, hcurrent]
  unfold allocateNewPage
  split
  · exact herror _ pager.pages fun _ _ => rfl
  simp only []
  split
  · exact herror _ _ hpages
  rename_i hlimit
  split
  · exact herror _ _ hpages
  have hne : ∀ page ∈ listed chain, page ≠ newPage cfg currentDbSize := by
    rintro page hpage rfl
    exact hpart.notMem_listed_of_lt hgt hpage
  refine allocatePost_done chain
    (hpart.extend (by rfl) ?_ ?_ rfl hgt (Nat.lt_of_not_le hlimit) hfreePage hskipped) hn rfl hfree
  · intro page hpage
    exact (update_of_ne (hne page hpage) ..).trans (hpages page hpage)
  · intro page hpage
    exact update_of_ne (hne page hpage) ..

theorem searchAvailableFreeListLeaf_post {trunkPage : ℕ}
    (hs : pager.allocatePageState = .searchAvailableFreeListLeaf trunkPage)
    (hpos : trunkPage ≠ 0) (htrunk : trunkPage = pager.header.freelistTrunkPage) :
    AllocatePost cfg sys (searchAvailableFreeListLeaf io trunkPage pager) := by
  obtain ⟨leaves, rest, rfl⟩ := (htrunk ▸ hpart.chain_from).exists_cons hpos
  obtain ⟨-, -, next, hbuf, hrest⟩ := hpart.chain_from
  have hcountEq := hbuf.count_eq
  unfold searchAvailableFreeListLeaf
  cases leaves with
  | nil =>
    have hclean : pager.overflowCells trunkPage = false := hpart.clean trunkPage (by simp)
    have hnodup := hpart.nodup
    rw [listed_cons, singleton_append, nodup_cons] at hnodup
    rw [hcountEq, hclean]
    refine allocatePost_done rest (hpart.take ?_ rfl ?_ fun _ _ => rfl) ?_ rfl hfree
    · simp
    · simp only [hbuf.next_eq]
      exact hrest.update_of_notMem hnodup.1 _
    · simp [hn]
  | cons leaf leaves =>
    have hleafEq : (pager.pages trunkPage).readU32 trunkOffsetFirstLeafPtr = leaf := by
      have hleaf := hbuf.leaf_eq 0 (by simp)
      rwa [Nat.zero_mul, Nat.add_zero, getElem_cons_zero] at hleaf
    have husable := hpart.listed_usable leaf (by simp)
    have hrange : ¬ (leaf < 2 ∨ pager.header.databaseSize < leaf) := by
      have := husable.1
      have := husable.2.1
      omega
    rw [hcountEq, hleafEq, if_pos (by simp), if_neg hrange]
    split
    · refine ⟨nofun, invariant_of_start hpart hn hfree ?_⟩
      simp only [AllocateInvariant, hs]
      exact ⟨trivial, hpos, htrunk⟩
    have hpart' : Partition cfg
        { pager with
          allocatePageState := .reuseFreelistLeaf trunkPage leaf (leaves.length + 1) }
        sys.live ((trunkPage, leaf :: leaves) :: rest) :=
      hpart.congr rfl (fun _ _ => rfl) (fun _ _ => rfl) rfl
    split
    · exact ⟨nofun, invariant_of_start hpart' hn hfree ⟨rfl, leaves, rest, rfl, rfl⟩⟩
    · exact reuseFreelistLeaf_post hpart' hn hfree

theorem allocateStart_post (hs : pager.allocatePageState = .start) :
    AllocatePost cfg sys (allocateStart cfg io pager) := by
  -- the pointer-map page lies past the end of the file
  have hpages (page : ℕ) (hpage : page ∈ listed chain) :
      setAsidePtrmapPage cfg io pager.header.databaseSize pager.pages page = pager.pages page :=
    setUp_of_le (hpart.listed_usable page hpage).2.1
  have hpart' : ∀ s, Partition cfg
      { pager with
        pages := setAsidePtrmapPage cfg io pager.header.databaseSize pager.pages
        allocatePageState := s } sys.live chain :=
    fun s => hpart.congr rfl hpages (fun _ _ => rfl) rfl
  unfold allocateStart
  dsimp only
  split
  · exact ⟨nofun, invariant_of_start hpart hn hfree (by simp [AllocateInvariant, hs])⟩
  split
  · exact allocateNewPage_post (hpart' _) hn hfree rfl rfl
  rename_i hpos
  split
  · exact ⟨nofun, invariant_of_start (hpart' _) hn hfree (by simp [AllocateInvariant, hs])⟩
  split
  · exact ⟨nofun, invariant_of_start (hpart' _) hn hfree ⟨rfl, hpos, rfl⟩⟩
  · exact searchAvailableFreeListLeaf_post (hpart' _) hn hfree rfl hpos rfl

end

/-- One call of `allocate_page` keeps the invariant and hands out no live page. -/
theorem allocatePage_post (hinv : InvariantFor cfg sys chain)
    (hready : sys.pending = none ∨ sys.pending = some .allocate) :
    AllocatePost cfg sys (allocatePage cfg io sys.pager) := by
  have hfree := hinv.freePageState_eq hready
  have hn := hinv.count
  simp only [hfree, inFlight, Nat.add_zero] at hn
  have hallocate := hinv.allocate
  have hwait : AllocatePost cfg sys (.ok .io, sys.pager) := by
    refine ⟨nofun, invariant_of_start hinv.partition hn hfree ?_⟩
    unfold AllocateInvariant at hallocate ⊢
    cases hs : sys.pager.allocatePageState with
    | start => trivial
    | allocateNewPage currentDbSize => simpa [hs] using hallocate
    | searchAvailableFreeListLeaf trunkPage
    | reuseFreelistLeaf trunkPage leafPage numberOfFreelistLeaves =>
      simp only [hs] at hallocate
      exact ⟨rfl, hallocate.2⟩
  unfold allocatePage
  split
  · exact hwait
  split
  · exact hwait
  unfold AllocateInvariant at hallocate
  cases hs : sys.pager.allocatePageState with
  | start => exact allocateStart_post hinv.partition hn hfree hs
  | allocateNewPage currentDbSize =>
    simp only [hs] at hallocate
    exact allocateNewPage_post hinv.partition hn hfree hs hallocate
  | searchAvailableFreeListLeaf trunkPage =>
    simp only [hs] at hallocate
    exact searchAvailableFreeListLeaf_post hinv.partition hn hfree hs hallocate.2.1 hallocate.2.2
  | reuseFreelistLeaf trunkPage leafPage numberOfFreelistLeaves =>
    simp only [hs] at hallocate
    obtain ⟨-, leaves, rest, rfl, rfl⟩ := hallocate
    exact reuseFreelistLeaf_post hinv.partition hn hfree

/-! ## `free_page` -/

/-- What the states of `free_page` have in common: the page is counted, still
live, and the other machine is at rest. -/
structure Freeing (cfg : Config) (sys : System) (pager : Pager) (page : ℕ)
    (chain : List (ℕ × List ℕ)) : Prop where
  partition : Partition cfg pager sys.live chain
  count : pager.header.freelistPages = (listed chain).length + 1
  live : page ∈ sys.live
  clean : pager.overflowCells page = false
  allocate : ∀ (pager' : Pager) (live : Set ℕ) (pending : Option Call)
    (chain' : List (ℕ × List ℕ)), pager'.allocatePageState = pager.allocatePageState →
    pager'.header.databaseSize = pager.header.databaseSize →
    AllocateInvariant cfg ⟨pager', live, pending⟩ chain'

section
variable (hfreeing : Freeing cfg sys pager page chain)
include hfreeing

theorem Freeing.done {pager' : Pager} (chain' : List (ℕ × List ℕ))
    (hperm : (listed chain').Perm (page :: listed chain))
    (hch : ChainFrom cfg.layout pager'.pages pager'.header.freelistTrunkPage chain')
    (hsize : pager'.header.databaseSize = pager.header.databaseSize)
    (hn : pager'.header.freelistPages = pager.header.freelistPages)
    (hcells : pager'.overflowCells = pager.overflowCells)
    (hallocate : pager'.allocatePageState = pager.allocatePageState)
    (hfree : pager'.freePageState = .start) :
    Invariant cfg (sys.freed page given (.ok (.done ()), pager')) := by
  refine ⟨chain', hfreeing.partition.give hfreeing.live hperm hsize hch hfreeing.clean hcells,
    ?_, hfreeing.allocate _ _ _ _ hallocate hsize, ?_⟩
  · simp only [System.freed, hfree, inFlight, hn, hfreeing.count, hperm.length_eq,
      length_cons, Nat.add_zero]
  · simp [FreeInvariant, System.freed, hfree]

theorem newTrunk_post :
    Invariant cfg (sys.freed page given (newTrunk page pager)) := by
  have hpart := hfreeing.partition
  have hfresh : page ∉ listed chain := fun hm => hpart.disjoint page hm hfreeing.live
  have hpos : page ≠ 0 := by
    have := (hpart.live_usable page hfreeing.live).1
    omega
  have htrunk : pager.header.freelistTrunkPage < pageNumberLimit := by
    by_cases hzero : pager.header.freelistTrunkPage = 0
    · rw [hzero]
      decide
    · obtain ⟨leaves, rest, heq⟩ := hpart.chain_from.exists_cons hzero
      have hm : pager.header.freelistTrunkPage ∈ listed chain := by
        rw [heq]
        simp
      exact (hpart.listed_usable _ hm).2.1.trans_lt hpart.size_lt
  refine hfreeing.done ((page, []) :: chain) ?_ ?_ rfl rfl rfl rfl rfl
  · simp
  · refine ⟨rfl, hpos, pager.header.freelistTrunkPage, ?_,
      hpart.chain_from.update_of_notMem hfresh _⟩
    dsimp only
    rw [update_self]
    exact isTrunk_new _ htrunk

theorem addToTrunk_post (hs : pager.freePageState = .addToTrunk page)
    (htrunk : pager.header.freelistTrunkPage ≠ 0) :
    Invariant cfg (sys.freed page given (addToTrunk cfg io page pager)) := by
  have hpart := hfreeing.partition
  have hwait : Invariant cfg (sys.freed page given (.ok .io, pager)) := by
    refine ⟨chain, hpart, ?_, hfreeing.allocate _ _ _ _ rfl rfl, ?_⟩
    · simp [System.freed, hs, inFlight, hfreeing.count]
    · simp only [FreeInvariant, System.freed, hs]
      exact ⟨⟨given, rfl⟩, hfreeing.live, hfreeing.clean, htrunk⟩
  unfold addToTrunk
  dsimp only
  split
  · exact hwait
  split
  · exact hwait
  obtain ⟨leaves, rest, rfl⟩ := hpart.chain_from.exists_cons htrunk
  obtain ⟨-, -, next, hbuf, hrest⟩ := hpart.chain_from
  have hnodup := hpart.nodup
  simp only [listed_cons, cons_append, nodup_cons, mem_append, not_or] at hnodup
  rw [hbuf.count_eq]
  split
  · rename_i hroom
    refine hfreeing.done ((pager.header.freelistTrunkPage, leaves ++ [page]) :: rest)
      ?_ ?_ rfl rfl rfl rfl rfl
    · simp only [listed_cons, cons_append, append_assoc, nil_append]
      exact (Perm.cons _ perm_middle).trans (Perm.swap _ _ _)
    · refine ⟨rfl, htrunk, next, ?_, ?_⟩
      · dsimp only
        rw [update_self]
        refine hbuf.push ?_ hroom
        exact (hpart.live_usable page hfreeing.live).2.1.trans_lt hpart.size_lt
      · exact hrest.update_of_notMem hnodup.1.2 _
  · refine newTrunk_post ⟨?_, hfreeing.count, hfreeing.live, hfreeing.clean, hfreeing.allocate⟩
    exact hpart.congr rfl (fun _ _ => rfl) (fun _ _ => rfl) rfl

end

theorem freeStart_post {pageId : ℕ} (hinv : InvariantFor cfg sys chain)
    (hnot : sys.pending ≠ some .allocate) (hs : sys.pager.freePageState = .start)
    (hmay : sys.MayFree pageId) :
    Invariant cfg (sys.freed pageId given (freeStart cfg io given pageId sys.pager)) := by
  have hpart := hinv.partition
  have hn : sys.pager.header.freelistPages = (listed chain).length := by
    rw [hinv.count, hs]
    rfl
  have hunchanged : ∀ pending, Invariant cfg ⟨sys.pager, sys.live, pending⟩ := fun pending =>
    invariant_of_start hpart hn hs (hinv.allocate.of_not_pending hnot rfl rfl)
  unfold freeStart
  dsimp only
  split
  · exact hunchanged none
  rename_i hrange
  split
  · exact hunchanged _
  have hlive : pageId ∈ sys.live := by
    rcases hmay with hlive | hout
    · exact hlive
    · exact absurd hout hrange
  have hfresh : pageId ∉ listed chain := fun hm => hpart.disjoint pageId hm hlive
  -- counting the page changes the header only
  have hfreeing : ∀ s, Freeing cfg sys
      { sys.pager with
        header := { sys.pager.header with freelistPages := sys.pager.header.freelistPages + 1 }
        overflowCells := update sys.pager.overflowCells pageId false
        freePageState := s } pageId chain := by
    intro s
    refine ⟨hpart.congr rfl (fun _ _ => rfl) ?_ rfl, ?_, hlive, ?_,
      fun _ _ _ _ => hinv.allocate.of_not_pending hnot⟩
    · intro p hp
      dsimp only
      rw [update_of_ne]
      rintro rfl
      exact hfresh hp
    · simp [hn]
    · simp
  by_cases htrunk : sys.pager.header.freelistTrunkPage = 0
  · rw [if_neg (not_not.mpr htrunk), if_neg (not_not.mpr htrunk)]
    split
    · refine ⟨chain, (hfreeing _).partition, (hfreeing _).count, ?_, ?_⟩
      · exact hinv.allocate.of_not_pending hnot rfl rfl
      · exact ⟨⟨given, rfl⟩, hlive, (hfreeing (.newTrunk pageId)).clean⟩
    · exact newTrunk_post (hfreeing _)
  · rw [if_pos htrunk, if_pos htrunk]
    split
    · refine ⟨chain, (hfreeing _).partition, (hfreeing _).count, ?_, ?_⟩
      · exact hinv.allocate.of_not_pending hnot rfl rfl
      · exact ⟨⟨given, rfl⟩, hlive, (hfreeing (.addToTrunk pageId)).clean, htrunk⟩
    · exact addToTrunk_post (hfreeing _) rfl htrunk

/-- One call of `free_page` keeps the invariant. -/
theorem freePage_post {pageId : ℕ} (hinv : InvariantFor cfg sys chain)
    (hready : sys.pending = none ∨ sys.pending = some (.free pageId given))
    (hmay : sys.MayFree pageId) :
    Invariant cfg (sys.freed pageId given (freePage cfg io given pageId sys.pager)) := by
  have hpart := hinv.partition
  have hnot : sys.pending ≠ some .allocate := by
    rcases hready with h | h <;> simp [h]
  -- a call that waits was already waiting for the same page
  have hpending : ∀ p, (∃ given', sys.pending = some (.free p given')) → p = pageId := by
    rintro p ⟨given', hpending⟩
    rcases hready with h | h <;> simp [h] at hpending
    exact hpending.1.symm
  have hfree := hinv.free
  have hn := hinv.count
  have hwait : Invariant cfg (sys.freed pageId given (.ok .io, sys.pager)) := by
    refine ⟨chain, hpart, hn, hinv.allocate.of_not_pending hnot rfl rfl, ?_⟩
    unfold FreeInvariant at hfree ⊢
    simp only [System.freed]
    cases hs : sys.pager.freePageState with
    | start => trivial
    | addToTrunk p | newTrunk p =>
      simp only [hs] at hfree
      obtain rfl := hpending p hfree.1
      exact ⟨⟨given, rfl⟩, hfree.2⟩
  unfold FreeInvariant at hfree
  unfold freePage
  by_cases hheader : io.waits .header = true
  · rw [if_pos hheader]
    exact hwait
  rw [if_neg hheader]
  cases hs : sys.pager.freePageState with
  | start => exact freeStart_post hinv hnot hs hmay
  | addToTrunk p =>
    simp only [hs] at hfree hn
    obtain ⟨hsame, hlive, hclean, htrunk⟩ := hfree
    obtain rfl := hpending p hsame
    exact addToTrunk_post ⟨hpart, hn, hlive, hclean,
      fun _ _ _ _ => hinv.allocate.of_not_pending hnot⟩ hs htrunk
  | newTrunk p =>
    simp only [hs] at hfree hn
    obtain ⟨hsame, hlive, hclean⟩ := hfree
    obtain rfl := hpending p hsame
    exact newTrunk_post ⟨hpart, hn, hlive, hclean,
      fun _ _ _ _ => hinv.allocate.of_not_pending hnot⟩

/-! ## Runs keep the invariant -/

theorem Step.invariant {sys sys' : System} (hstep : Step cfg sys sys')
    (hinv : Invariant cfg sys) : Invariant cfg sys' := by
  obtain ⟨chain, hinv⟩ := hinv
  cases hstep with
  | allocate io hready => exact (allocatePage_post hinv hready).2
  | free io pageId given hready hmay => exact freePage_post hinv hready hmay
  | modify page c cells hready hlive =>
    have hfresh : page ∉ listed chain := fun hm => hinv.partition.disjoint page hm hlive
    have hne : ∀ x ∈ listed chain, x ≠ page := by
      rintro x hx rfl
      exact hfresh hx
    refine ⟨chain, hinv.partition.congr rfl ?_ ?_ rfl, hinv.count, ?_, ?_⟩
    · exact fun x hx => update_of_ne (hne x hx) ..
    · exact fun x hx => update_of_ne (hne x hx) ..
    · exact hinv.allocate.of_not_pending (by simp [hready]) rfl rfl
    · have hfree := hinv.freePageState_eq (Or.inl hready)
      simp [FreeInvariant, hfree]

theorem invariant_of_run {sys sys' : System} (hrun : Relation.ReflTransGen (Step cfg) sys sys')
    (hinv : Invariant cfg sys) : Invariant cfg sys' := by
  induction hrun with
  | refl => exact hinv
  | tail _ hstep ih => exact hstep.invariant ih

/-- A database at rest whose pages are partitioned into live and free. -/
structure Initial (cfg : Config) (sys : System) : Prop where
  pending_eq : sys.pending = none
  allocate_eq : sys.pager.allocatePageState = .start
  free_eq : sys.pager.freePageState = .start
  partition : ∃ chain, Partition cfg sys.pager sys.live chain ∧
    sys.pager.header.freelistPages = (listed chain).length

theorem Initial.invariant (hstart : Initial cfg sys) : Invariant cfg sys := by
  obtain ⟨chain, hpart, hn⟩ := hstart.partition
  refine invariant_of_start hpart hn hstart.free_eq ?_
  simp [AllocateInvariant, hstart.allocate_eq]

/-- **The freelist is sound.**  In every state of every run that starts from a
partitioned database, the trunk chain lists no page twice, no live page and no
reserved page, every other page of the file is live or listed, and the header
counts the listed pages: exactly at rest, and together with the page that a
waiting `free_page` has yet to link otherwise.  Whatever `allocate_page` then
returns is not live. -/
theorem freelist_sound {start : System} (hstart : Initial cfg start)
    (hrun : Relation.ReflTransGen (Step cfg) start sys) :
    ∃ chain, ChainFrom cfg.layout sys.pager.pages sys.pager.header.freelistTrunkPage chain ∧
      (listed chain).Nodup ∧
      (∀ page ∈ listed chain, page ∉ sys.live ∧ ¬ Reserved cfg page) ∧
      (∀ page, 2 ≤ page → page ≤ sys.pager.header.databaseSize → ¬ Reserved cfg page →
        page ∈ sys.live ∨ page ∈ listed chain) ∧
      sys.pager.header.freelistPages = (listed chain).length + inFlight sys.pager.freePageState ∧
      (sys.pending = none → sys.pager.header.freelistPages = (listed chain).length) ∧
      (sys.pending = none ∨ sys.pending = some .allocate →
        ∀ io page pager, allocatePage cfg io sys.pager = (.ok (.done page), pager) →
          page ∉ sys.live) := by
  obtain ⟨chain, hinv⟩ := invariant_of_run hrun hstart.invariant
  have hpart := hinv.partition
  refine ⟨chain, hpart.chain_from, hpart.nodup, ?_, ?_, hinv.count, ?_, ?_⟩
  · exact fun page hpage => ⟨hpart.disjoint page hpage, (hpart.listed_usable page hpage).2.2⟩
  · exact fun page hlow hhigh hfree => hpart.cover page ⟨hlow, hhigh, hfree⟩
  · intro hpending
    have hcount := hinv.count
    rwa [hinv.freePageState_eq (Or.inl hpending), inFlight, Nat.add_zero] at hcount
  · intro hready io page pager hdone
    exact (allocatePage_post hinv hready).1 page pager hdone

/-- A database of three pages: page 2 is live, page 3 an empty trunk. -/
def oneTrunk : System where
  pager :=
    { header := ⟨3, 3, 1⟩
      pages := fun _ => ByteBuffer.zeros
      overflowCells := fun _ => false
      allocatePageState := .start
      freePageState := .start }
  live := {2}
  pending := none

def oneTrunkConfig : Config := ⟨⟨⟨4096, by decide⟩, 0, by decide⟩, .none⟩

theorem oneTrunk_initial : Initial oneTrunkConfig oneTrunk := by
  have hreserved : ∀ page, page ≤ 3 → ¬ Reserved oneTrunkConfig page := by
    rintro page hle (hpending | ⟨hfull, -⟩)
    · rw [show pendingBytePageId oneTrunkConfig.layout.pageSize = 262145 from rfl] at hpending
      omega
    · exact absurd hfull (by decide)
  refine ⟨rfl, rfl, rfl, [(3, [])], ⟨?_, by simp, ?_, ?_, ?_, ?_, ?_, by decide, by decide⟩, rfl⟩
  · exact ⟨rfl, by decide, 0, ⟨rfl, rfl, fun i hi => absurd hi (Nat.not_lt_zero i),
      Nat.zero_le _⟩, rfl⟩
  · intro page hpage
    obtain rfl : page = 3 := by simpa using hpage
    exact ⟨by decide, le_refl _, hreserved 3 (le_refl _)⟩
  · rintro page rfl
    exact ⟨le_refl _, by decide, hreserved 2 (by decide)⟩
  · intro page hpage
    obtain rfl : page = 3 := by simpa using hpage
    exact fun hlive => absurd (Set.mem_singleton_iff.mp hlive) (by decide)
  · rintro page ⟨hlow, hhigh, -⟩
    have hcases : page = 2 ∨ page = 3 := by
      have : page ≤ 3 := hhigh
      omega
    rcases hcases with rfl | rfl
    · exact Or.inl rfl
    · exact Or.inr (by simp)
  · intro page _
    rfl

/-- `oneTrunk` after page 2 was freed. -/
def oneLeaf : System :=
  oneTrunk.freed 2 true (freePage oneTrunkConfig (limitedTo 3) true 2 oneTrunk.pager)

/-- Page 2 is freed and handed out again, and then it cannot be handed out. -/
theorem freelist_sound_oneTrunk : ∃ sys,
    Relation.ReflTransGen (Step oneTrunkConfig) oneTrunk sys ∧ 2 ∈ sys.live ∧
      ∀ io pager, allocatePage oneTrunkConfig io sys.pager ≠ (.ok (.done 2), pager) := by
  have hrun : Relation.ReflTransGen (Step oneTrunkConfig) oneTrunk
      (oneLeaf.allocated (allocatePage oneTrunkConfig (limitedTo 3) oneLeaf.pager)) :=
    (Relation.ReflTransGen.single (.free oneTrunk _ 2 true (Or.inl rfl) (Or.inl rfl))).tail
      (.allocate oneLeaf _ (Or.inl rfl))
  have hlive : 2 ∈ (oneLeaf.allocated
      (allocatePage oneTrunkConfig (limitedTo 3) oneLeaf.pager)).live := Or.inl rfl
  obtain ⟨-, -, -, -, -, -, -, hfresh⟩ := freelist_sound oneTrunk_initial hrun
  exact ⟨_, hrun, hlive, fun io pager hdone => hfresh (Or.inl rfl) io 2 pager hdone hlive⟩

end Turso.Freelist
