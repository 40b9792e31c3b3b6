import Turso.Vdbe.HashTable.Memory

/-!
# The memory of loaded partitions

Evictions and loads (`core/vdbe/hash_table.rs`) keep the accounts of a table.  The loop of
`evict_partitions_to_fit` ends with the budget kept or with nothing left to evict (`EvictedToFit`).  A
load counts the memory of its partition if no other partition is loaded (`exact_becomeResident`).
-/

namespace Turso.HashTable

open SpilledPartition Finset
open State (isSome_of_partition partition_setPartition_of_ne)

variable {cfg : Config} {env : Environment} {state : State}

/-! ## Loading and evicting -/

/-- A partition is replaced by one that holds the same memory, loaded partitions apart. -/
structure Replaces (partition replaced : SpilledPartition) : Prop where
  wellFormed : partition.WellFormed
  inMemory : inMemorySize (some partition) = inMemorySize (some replaced)
  building : partition.state = .inMemory → replaced.state = .inMemory

section

variable {index : ℕ} {partition replaced : SpilledPartition}

theorem Accounts.setPartition (haccounts : Accounts state)
    (hpartition : state.partition index = some replaced) (hreplaces : Replaces partition replaced) :
    Accounts (state.setPartition index partition) ∧
      (state.setPartition index partition).loadedSize + loadedSize (some replaced) =
        state.loadedSize + loadedSize (some partition) := by
  obtain ⟨sp, hsp⟩ := Option.isSome_iff_exists.1 (isSome_of_partition hpartition)
  obtain ⟨hspillAccounts, hbuckets⟩ := haccounts.spill sp hsp
  have hpartitions := State.partition_of_spill hsp
  have hreplaced : sp.partitions index = some replaced := hpartitions index ▸ hpartition
  have hindex := hspillAccounts.index_lt_of_partition hreplaced
  have hset : (state.setPartition index partition).spillState =
      some { sp with partitions := Function.update sp.partitions index (some partition) } := by
    rw [State.setPartition, hsp]
    rfl
  have hinMemory := sum_update sp.partitions inMemorySize hindex (some partition)
  have hld := sum_update sp.partitions loadedSize hindex (some partition)
  rw [hreplaced] at hinMemory hld
  constructor
  · refine accounts_of_spill hset hbuckets ?_ (hspillAccounts.setPartition hindex hreplaces.wellFormed)
      fun hinsertable => PartialMap.forall_update.2 ⟨fun hstate => ?_, fun other p _ hp => ?_⟩
    · have hmemUsed := haccounts.memUsed_eq hsp
      have hsame := hreplaces.inMemory
      simp only [SpillState.bufferedSize, SpillState.inMemorySize] at hmemUsed ⊢
      change state.memUsed = _
      omega
    · exact haccounts.building hinsertable index replaced hpartition (hreplaces.building hstate)
    · exact haccounts.building hinsertable other p ((hpartitions other).trans hp)
  · unfold State.loadedSize
    rw [hset, hsp]
    exact hld

theorem mem_touch {x : ℕ} (hm : x ∈ state.loadedPartitionsLru) :
    x ∈ (touchPartitionLru state index).loadedPartitionsLru := by
  unfold touchPartitionLru
  by_cases hx : x = index
  · simp [hx]
  · simp [List.mem_erase_of_ne hx, hm]

theorem evictable_iff {protectIdx victim : ℕ} : evictable state protectIdx victim = true ↔
    victim ≠ protectIdx ∧ ∃ p, state.partition victim = some p ∧ p.state = .loaded ∧ p.chunks ≠ [] := by
  unfold evictable
  cases state.partition victim <;> simp

theorem SpilledPartition.WellFormed.unload (hwell : partition.WellFormed)
    (hchunks : partition.chunks ≠ []) : partition.unload.WellFormed where
  inMemory := nofun
  onDisk _ := List.length_pos_of_ne_nil hchunks
  loaded := nofun
  sizes := hwell.sizes

theorem replaces_unload (hwell : partition.WellFormed) (hld : partition.state = .loaded)
    (hchunks : partition.chunks ≠ []) : Replaces partition.unload partition where
  wellFormed := hwell.unload hchunks
  inMemory := by simp [inMemorySize, hld, unload, new]
  building := nofun

/-- The state from which a partition can be evicted or become resident. -/
structure Evicting (state : State) (protectIdx : ℕ) : Prop where
  accounts : Accounts state
  listed : Listed state (some protectIdx)

theorem Listed.evictPartition {protectIdx victim : ℕ} (hlisted : Listed state (some protectIdx))
    (hvictim : evictable state protectIdx victim = true) :
    Listed (evictPartition state victim) (some protectIdx) := by
  obtain ⟨-, p, hp, -⟩ := evictable_iff.1 hvictim
  rw [HashTable.evictPartition, hp]
  intro x q hq hq' hexcept
  change (state.setPartition victim p.unload).partition x = some q at hq
  have hvictim : x ≠ victim := by
    rintro rfl
    rw [State.partition_setPartition_self (isSome_of_partition hp)] at hq
    cases hq
    cases hq'
  rw [partition_setPartition_of_ne hvictim] at hq
  exact (List.mem_erase_of_ne hvictim).2 (hlisted x q hq hq' hexcept)

theorem Evicting.evictPartition {protectIdx victim : ℕ} (hevicting : Evicting state protectIdx)
    (hvictim : evictable state protectIdx victim = true) :
    Evicting (evictPartition state victim) protectIdx ∧
      (evictPartition state victim).partition protectIdx = state.partition protectIdx := by
  obtain ⟨hne, p, hp, hld, hchunks⟩ := evictable_iff.1 hvictim
  obtain ⟨sp, hsp⟩ := Option.isSome_iff_exists.1 (isSome_of_partition hp)
  have hwell := (hevicting.accounts.spill sp hsp).1.wellFormed victim p
    (State.partition_of_spill hsp victim ▸ hp)
  obtain ⟨haccounts, -⟩ := hevicting.accounts.setPartition hp (replaces_unload hwell hld hchunks)
  refine ⟨⟨?_, hevicting.listed.evictPartition hvictim⟩, ?_⟩
  · rw [HashTable.evictPartition, hp]
    refine ⟨haccounts.memUsed, haccounts.spill, ?_, haccounts.building⟩
    intro hno
    change (state.setPartition victim p.unload).spillState = none at hno
    have hself := @State.partition_setPartition_self state victim p.unload
      (isSome_of_partition hp)
    exact absurd (isSome_of_partition hself) (by simp [hno])
  · rw [HashTable.evictPartition, hp]
    exact partition_setPartition_of_ne hne.symm

variable {incomingMem : ℕ}

/-- What every eviction keeps, the loop of `evict_partitions_to_fit` keeps. -/
theorem evictLoop_induction {motive : State → Prop} {protectIdx turns : ℕ}
    (hstep : ∀ {state victim}, motive state → evictable state protectIdx victim = true →
      motive (evictPartition state victim)) (h : motive state) :
    motive (evictLoop cfg incomingMem protectIdx turns state) := by
  induction turns generalizing state with
  | zero => exact h
  | succ turns ih =>
    rw [evictLoop]
    split_ifs
    · cases hfind : state.loadedPartitionsLru.find? (evictable state protectIdx) with
      | none => exact h
      | some victim => exact ih (hstep h (List.find?_some hfind))
    · exact h

theorem Evicting.evictLoop {protectIdx turns : ℕ} (hevicting : Evicting state protectIdx) :
    Evicting (evictLoop cfg incomingMem protectIdx turns state) protectIdx ∧
      (evictLoop cfg incomingMem protectIdx turns state).partition protectIdx =
        state.partition protectIdx := by
  refine @evictLoop_induction _ _ _ (fun s => Evicting s protectIdx ∧
    s.partition protectIdx = state.partition protectIdx) _ _ ?_ ⟨hevicting, rfl⟩
  rintro s victim ⟨hevicting, hsame⟩ hvictim
  obtain ⟨hnx, hsame'⟩ := hevicting.evictPartition hvictim
  exact ⟨hnx, hsame'.trans hsame⟩

/-- After evicting the budget is exceeded only if no other loaded partition with chunks is left. -/
def EvictedToFit (config : Config) (state : State) (incomingMem protectIdx : ℕ) : Prop :=
  state.memUsed + state.loadedPartitionsMem + incomingMem > config.memBudget →
    ∀ index, evictable state protectIdx index = false

theorem Listed.evictLoop_fits {protectIdx turns : ℕ}
    (hlisted : Listed state (some protectIdx)) (hturns : state.loadedPartitionsLru.length < turns) :
    EvictedToFit cfg (evictLoop cfg incomingMem protectIdx turns state) incomingMem
      protectIdx := by
  induction turns generalizing state with
  | zero => omega
  | succ turns ih =>
    rw [evictLoop]
    split_ifs with hover
    · cases hfind : state.loadedPartitionsLru.find? (evictable state protectIdx) with
      | none =>
        intro _ i
        by_contra hevictable
        rw [Bool.not_eq_false] at hevictable
        obtain ⟨hne, p, hp, hld, -⟩ := evictable_iff.1 hevictable
        have hm := hlisted i p hp hld (by simpa using hne)
        exact List.find?_eq_none.1 hfind i hm hevictable
      | some victim =>
        refine ih (hlisted.evictPartition (List.find?_some hfind)) ?_
        have hm := List.mem_of_find?_eq_some hfind
        have hlen : (HashTable.evictPartition state victim).loadedPartitionsLru =
            state.loadedPartitionsLru.erase victim := by
          unfold HashTable.evictPartition
          cases state.partition victim <;> rfl
        rw [hlen, List.length_erase_of_mem hm]
        have := List.length_pos_of_mem hm
        omega
    · exact fun hexceeds => absurd hexceeds hover

/-- `evict_partitions_to_fit` with nothing to evict. -/
theorem evictPartitionsToFit_eq_self {protectIdx : ℕ}
    (halone : ∀ index, evictable state protectIdx index = false) :
    evictPartitionsToFit cfg state incomingMem protectIdx = state := by
  unfold evictPartitionsToFit
  rw [evictLoop]
  split_ifs
  · rw [List.find?_eq_none.2 fun index _ => by simp [halone index]]
  · rfl

variable {residentMem : ℕ}

/-- The partition that becomes resident keeps its place. -/
theorem accounts_becomeResident (haccounts : Accounts state)
    (hlisted : Listed state none) (hreplaced : state.partition index = some replaced)
    (hreplaces : Replaces partition replaced)
    (hresident : partition.residentMem = residentMem) :
    Accounts (becomeResident cfg (state.setPartition index partition) index residentMem) ∧
      Listed (becomeResident cfg (state.setPartition index partition) index residentMem) none := by
  have hsp := isSome_of_partition hreplaced
  have hevicting : Evicting (state.setPartition index partition) index := by
    refine ⟨(haccounts.setPartition hreplaced hreplaces).1, ?_⟩
    intro other p hp hld hexcept
    have hne : other ≠ index := fun heq => hexcept (congrArg some heq)
    rw [partition_setPartition_of_ne hne] at hp
    exact hlisted other p hp hld (by simp)
  obtain ⟨hevicted, hsame⟩ := @Evicting.evictLoop cfg _ residentMem index
    ((state.setPartition index partition).loadedPartitionsLru.length + 1) hevicting
  rw [State.partition_setPartition_self hsp] at hsame
  rw [becomeResident, evictPartitionsToFit, recordPartitionResident, hsame]
  subst hresident
  generalize evictLoop cfg partition.residentMem index _ _ = evicted at *
  have hreplace : Replaces { partition with residentMem := partition.residentMem } partition :=
    ⟨hreplaces.wellFormed, rfl, id⟩
  obtain ⟨hset, -⟩ := hevicted.accounts.setPartition hsame hreplace
  have hself := @State.partition_setPartition_self evicted index partition
    (isSome_of_partition hsame)
  constructor
  · refine ⟨hset.memUsed, hset.spill, ?_, hset.building⟩
    intro hno
    change (evicted.setPartition index partition).spillState = none at hno
    exact absurd (isSome_of_partition hself) (by simp [hno])
  · intro other p hp hld _
    by_cases hother : other = index
    · simp [touchPartitionLru, hother]
    · refine mem_touch (hevicted.listed other p ?_ hld (by simpa using hother))
      rw [← @State.partition_setPartition_of_ne evicted index partition other hother]
      exact hp

/-! ### The load of a partition -/

/-- No partition is loaded. -/
def NoneLoaded (state : State) : Prop :=
  ∀ index partition, state.partition index = some partition → partition.state ≠ .loaded

theorem NoneLoaded.loadedSize_eq (hno : NoneLoaded state) : state.loadedSize = 0 := by
  unfold State.loadedSize
  cases hsp : state.spillState with
  | none => rfl
  | some sp =>
    change ∑ i ∈ range sp.partitioning.count, loadedSize (sp.partitions i) = 0
    refine sum_eq_zero fun i _ => ?_
    cases hp : sp.partitions i with
    | none => rfl
    | some p => exact if_neg (hno i p ((State.partition_of_spill hsp i).trans hp))

theorem NoneLoaded.setPartition (hno : NoneLoaded state) (hq : partition.state ≠ .loaded) :
    NoneLoaded (state.setPartition index partition) := by
  intro x p hp
  by_cases hx : x = index
  · subst hx
    have hsp : state.spillState.isSome := by
      have := isSome_of_partition hp
      simpa [State.setPartition] using this
    rw [State.partition_setPartition_self hsp] at hp
    cases hp
    exact hq
  · rw [partition_setPartition_of_ne hx] at hp
    exact hno x p hp

/-- A partition that becomes resident while no other one is loaded is counted with its memory. -/
theorem exact_becomeResident (haccounts : Accounts state) (hexact : Exact state)
    (hno : NoneLoaded state) (hreplaced : state.partition index = some replaced)
    (hreplaces : Replaces partition replaced) (hld : partition.state = .loaded)
    (hresident : partition.residentMem = residentMem) :
    Exact (becomeResident cfg (state.setPartition index partition) index residentMem) := by
  have hsp := isSome_of_partition hreplaced
  have hm : state.loadedPartitionsMem = 0 := hexact.trans hno.loadedSize_eq
  have halone : ∀ x, evictable (state.setPartition index partition) index x = false := by
    intro x
    by_contra hevictable
    rw [Bool.not_eq_false] at hevictable
    obtain ⟨hne, p, hp, hp', -⟩ := evictable_iff.1 hevictable
    rw [partition_setPartition_of_ne hne] at hp
    exact hno x p hp hp'
  have hsize := (haccounts.setPartition hreplaced hreplaces).2
  have hb : loadedSize (some replaced) = 0 := if_neg (hno index replaced hreplaced)
  have hafter : loadedSize (some partition) = residentMem := by
    rw [← hresident, (hreplaces.wellFormed.loaded hld).2]
    exact if_pos hld
  rw [hb, hafter, hno.loadedSize_eq] at hsize
  rw [becomeResident, evictPartitionsToFit_eq_self halone, recordPartitionResident,
    State.partition_setPartition_self hsp]
  subst hresident
  have hsame : ((state.setPartition index partition).setPartition index partition).loadedSize =
      (state.setPartition index partition).loadedSize := by
    obtain ⟨sp, hsp⟩ := Option.isSome_iff_exists.1 hsp
    simp [State.setPartition, State.loadedSize, hsp]
  change state.loadedPartitionsMem - partition.residentMem + partition.residentMem =
    ((state.setPartition index partition).setPartition index partition).loadedSize
  omega

theorem replaces_of_onDisk (hreplaced : replaced.isLoaded = false) (hwell : partition.WellFormed)
    (hs : partition.state ≠ .inMemory) : Replaces partition replaced where
  wellFormed := hwell
  inMemory := by
    have hreplaced' : replaced.state ≠ .inMemory := by
      rcases isLoaded_eq_false_iff.1 hreplaced with h | h <;> simp [h]
    exact (if_neg hs).trans (if_neg hreplaced').symm
  building := fun h => absurd h hs

section
variable (hwell : partition.WellFormed) (hld : partition.isLoaded = false)
include hwell hld

theorem SpilledPartition.WellFormed.reading : WellFormed
      { partition.beginLoad with ioState := .waitingForRead, state := .loading } where
  inMemory := nofun
  onDisk _ := by
    rw [beginLoad_frame.1, beginLoad_frame.2]
    exact hwell.onDisk (isLoaded_eq_false_iff.1 hld)
  loaded := nofun
  sizes := by
    rw [beginLoad_frame.1]
    exact hwell.sizes

theorem SpilledPartition.WellFormed.parsed {parsed : SpilledPartition}
    (hparse : partition.parseChunk = .ok parsed)
    (hmore : parsed.currentChunkIdx < parsed.chunks.length) :
    parsed.WellFormed ∧ parsed.isLoaded = false := by
  obtain ⟨hchunks, hs, -⟩ := parseChunk_frame hparse
  have hld' : parsed.isLoaded = false := by
    rw [← hld, isLoaded, isLoaded, hs]
  have hparsed := isLoaded_eq_false_iff.1 hld'
  refine ⟨⟨?_, fun _ => hmore, ?_, hchunks ▸ hwell.sizes⟩, hld'⟩
  · intro h
    rcases hparsed with h' | h' <;> rw [h'] at h <;> cases h
  · intro h
    rcases hparsed with h' | h' <;> rw [h'] at h <;> cases h

theorem SpilledPartition.WellFormed.finished {parsed : SpilledPartition}
    (hparse : partition.parseChunk = .ok parsed) :
    WellFormed
      { parsed with state := .loaded, residentMem := partitionBucketMem parsed.buckets } where
  inMemory := nofun
  onDisk := by simp
  loaded _ := by
    rw [(parseChunk_frame hparse).1]
    have := hwell.onDisk (isLoaded_eq_false_iff.1 hld)
    exact ⟨List.ne_nil_of_length_pos (by omega), rfl⟩
  sizes := (parseChunk_frame hparse).1 ▸ hwell.sizes

end

/-- The accounts of a state between two calls. -/
structure Sound (state : State) : Prop where
  accounts : Accounts state
  listed : Listed state none

theorem Similar.sound {next : State} (hsimilar : Similar state next) (hsound : Sound state) :
    Sound next :=
  ⟨hsimilar.accounts hsound.accounts, hsimilar.listed hsound.listed⟩

theorem Sound.wellFormed (hsound : Sound state) (hp : state.partition index = some partition) :
    partition.WellFormed := by
  obtain ⟨sp, hsp⟩ := Option.isSome_iff_exists.1 (isSome_of_partition hp)
  rw [State.partition_of_spill hsp] at hp
  exact (hsound.accounts.spill sp hsp).1.wellFormed index partition hp

/-- A partition on disk is replaced by one that is not loaded either. -/
theorem Sound.setPartition (hsound : Sound state) (hreplaced : state.partition index = some replaced)
    (hreplaces : Replaces partition replaced) (hld : partition.state ≠ .loaded) :
    Sound (state.setPartition index partition) := by
  refine ⟨(hsound.accounts.setPartition hreplaced hreplaces).1, ?_⟩
  intro x p hp hp' hexcept
  by_cases hx : x = index
  · subst hx
    rw [State.partition_setPartition_self (isSome_of_partition hreplaced)] at hp
    cases hp
    exact absurd hp' hld
  · rw [partition_setPartition_of_ne hx] at hp
    exact hsound.listed x p hp hp' hexcept

/-- No partition is loaded, and none is counted. -/
structure Unloaded (state : State) : Prop where
  exact : Exact state
  noneLoaded : NoneLoaded state

theorem Unloaded.setPartition (hunloaded : Unloaded state) (hld : partition.state ≠ .loaded) :
    Unloaded (state.setPartition index partition) := by
  have hno := @NoneLoaded.setPartition _ index _ hunloaded.noneLoaded hld
  refine ⟨?_, hno⟩
  rw [Exact, hno.loadedSize_eq]
  exact hunloaded.exact.trans hunloaded.noneLoaded.loadedSize_eq

variable {res : State × LoadTurn}

/-- A turn for a partition on disk. -/
theorem Sound.loadsChunk (hsound : Sound state)
    (hp : state.partition index = some partition) (hld : partition.isLoaded = false)
    (hloads : LoadsChunk cfg env state index partition res) :
    Sound res.1 ∧ (Unloaded state → Exact res.1 ∧ (res.2 = .again → NoneLoaded res.1)) := by
  have hwell := hsound.wellFormed hp
  cases hloads with
  | waits => exact ⟨hsound, fun hunloaded => ⟨hunloaded.exact, nofun⟩⟩
  | reads =>
    set reading : SpilledPartition :=
      { partition.beginLoad with ioState := .waitingForRead, state := .loading } with hreading
    have hreads : ∀ next : SpilledPartition, next.memory = reading.memory →
        Replaces next partition ∧ next.state ≠ .loaded := by
      intro next hmemory
      have hs : next.state = .loading := state_of_memory hmemory
      have hnx := (hwell.reading hld).of_memory hmemory.symm
      exact ⟨replaces_of_onDisk hld hnx (by simp [hs]), by simp [hs]⟩
    have hsubmitted : Sound { state with ioCount := state.ioCount + 1 } :=
      ⟨{ hsound.accounts with }, hsound.listed⟩
    have hset : ∀ next : SpilledPartition, next.memory = reading.memory →
        Sound (State.setPartition { state with ioCount := state.ioCount + 1 } index next) ∧
          (Unloaded state →
            Unloaded (State.setPartition { state with ioCount := state.ioCount + 1 } index next)) := by
      intro next hmemory
      obtain ⟨hreplaces, hnx⟩ := hreads next hmemory
      exact ⟨hsubmitted.setPartition hp hreplaces hnx, fun hunloaded =>
        @Unloaded.setPartition _ _ _ ⟨hunloaded.exact, hunloaded.noneLoaded⟩ hnx⟩
    unfold submitRead
    split_ifs
    · obtain ⟨hnx, hunloaded'⟩ := hset _ (memory_completeRead reading _)
      exact ⟨hnx, fun hunloaded =>
        ⟨(hunloaded' hunloaded).exact, fun _ => (hunloaded' hunloaded).noneLoaded⟩⟩
    · obtain ⟨hnx, hunloaded'⟩ := hset reading rfl
      exact ⟨hnx, fun hunloaded => ⟨(hunloaded' hunloaded).exact, nofun⟩⟩
  | @parses parsed hio hparse hmore =>
    obtain ⟨hparsed, hld'⟩ := hwell.parsed hld hparse hmore
    have hstates := isLoaded_eq_false_iff.1 hld'
    have hs : parsed.state ≠ .inMemory ∧ parsed.state ≠ .loaded := by
      rcases hstates with h | h <;> simp [h]
    have hreplaces := replaces_of_onDisk hld hparsed hs.1
    refine ⟨hsound.setPartition hp hreplaces hs.2, fun hunloaded => ?_⟩
    have hnx := @Unloaded.setPartition _ index _ hunloaded hs.2
    exact ⟨hnx.exact, fun _ => hnx.noneLoaded⟩
  | finishes hio hparse hlast hleft hn =>
    have hreplaces := replaces_of_onDisk hld (hwell.finished hld hparse) nofun
    obtain ⟨haccounts, hlisted⟩ :=
      @accounts_becomeResident cfg _ _ _ _ _ hsound.accounts hsound.listed hp hreplaces rfl
    refine ⟨⟨haccounts, hlisted⟩, fun hunloaded => ⟨?_, nofun⟩⟩
    exact exact_becomeResident hsound.accounts hunloaded.exact hunloaded.noneLoaded hp
      hreplaces rfl rfl

theorem Sound.touch (hsound : Sound state) : Sound (touchPartitionLru state index) :=
  ⟨{ hsound.accounts with }, fun x p hp hld hexcept =>
    mem_touch (hsound.listed x p hp hld hexcept)⟩

/-- A partition that is not in memory is loaded only while no other one is loaded. -/
def LoadsAlone (state : State) (index : ℕ) : Prop :=
  ∀ partition, state.partition index = some partition → partition.isLoaded = false → NoneLoaded state

theorem phase_evictLoop {protectIdx turns : ℕ} :
    (evictLoop cfg incomingMem protectIdx turns state).phase = state.phase := by
  refine @evictLoop_induction _ _ _ (fun s => s.phase = state.phase) _ _ ?_ rfl
  intro s victim hphase _
  unfold evictPartition
  split <;> exact hphase

theorem phase_becomeResident :
    (becomeResident cfg state index residentMem).phase = state.phase := by
  refine Eq.trans ?_
    (@phase_evictLoop cfg state residentMem index (state.loadedPartitionsLru.length + 1))
  unfold becomeResident recordPartitionResident evictPartitionsToFit
  split <;> rfl

theorem phase_loadsChunk
    (hloads : LoadsChunk cfg env state index partition res) :
    res.1.phase = state.phase := by
  cases hloads with
  | waits => rfl
  | reads =>
    unfold submitRead
    split_ifs <;> rfl
  | parses => rfl
  | finishes => exact phase_becomeResident

/-- What a call keeps; the memory of loaded partitions only under a condition. -/
structure Keeps (condition : Prop) (state next : State) : Prop where
  sound : Sound next
  exact : condition → Exact state → Exact next
  phase : next.phase = state.phase

theorem Keeps.refl {condition : Prop} (hsound : Sound state) : Keeps condition state state :=
  ⟨hsound, fun _ hexact => hexact, rfl⟩

variable {next : State}

theorem Keeps.trans {condition : Prop} {middle : State} (ha : Keeps condition state middle)
    (hb : Keeps True middle next) : Keeps condition state next where
  sound := hb.sound
  exact hcondition hexact := hb.exact trivial (ha.exact hcondition hexact)
  phase := hb.phase.trans ha.phase

theorem Sound.loadTurn {turn : LoadTurn} (hsound : Sound state)
    (hturn : loadTurn cfg env state index = .ok (next, turn)) : Sound next := by
  rcases loadTurn_cases (fun p hp => hsound.wellFormed hp) hturn with
    ⟨-, rfl, -⟩ | ⟨p, hp, ⟨-, rfl, -⟩ | ⟨hloaded, hloads⟩⟩
  · exact hsound
  · exact hsound.touch
  · exact (hsound.loadsChunk hp hloaded hloads).1

theorem keeps_loadLoop {turns : ℕ} {res : IOResult Unit} (hsound : Sound state)
    (hload : loadLoop cfg env index turns state = .ok (next, res)) :
    Keeps (LoadsAlone state index) state next := by
  induction turns generalizing state with
  | zero =>
    cases hload
    exact Keeps.refl hsound
  | succ turns ih =>
    obtain ⟨⟨middle, turn⟩, hturn, hload⟩ := bind_eq_ok.1 hload
    rcases loadTurn_cases (fun p hp => hsound.wellFormed hp) hturn with
      ⟨-, rfl, rfl⟩ | ⟨p, hp, ⟨-, rfl, rfl⟩ | ⟨hloaded, hloads⟩⟩
    · cases hload
      exact Keeps.refl hsound
    · cases hload
      exact ⟨hsound.touch, fun _ hexact => hexact, rfl⟩
    obtain ⟨hmiddle, hunloaded⟩ := hsound.loadsChunk hp hloaded hloads
    have hcounts := fun halone : LoadsAlone state index => fun hexact : Exact state =>
      hunloaded ⟨hexact, halone p hp hloaded⟩
    have hphase : middle.phase = state.phase := phase_loadsChunk hloads
    cases turn with
    | again =>
      obtain ⟨hnx, hexact', hphase'⟩ := ih hmiddle hload
      refine ⟨hnx, fun halone hexact => ?_, hphase'.trans hphase⟩
      obtain ⟨hexact, hno⟩ := hcounts halone hexact
      exact hexact' (fun _ _ _ => hno rfl) hexact
    | done | yield =>
      cases hload
      exact ⟨hmiddle, fun halone hexact => (hcounts halone hexact).1, hphase⟩

end

end Turso.HashTable
