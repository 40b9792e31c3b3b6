import Turso.Vdbe.HashTable.Spilling

/-!
# Resident memory of a hash table

The calls on a table (`core/vdbe/hash_table.rs`) in any order, with IO that ends at any time between
them.  In every state that is reached `mem_used` is the size of what is held in buckets and buffers,
and every eviction ends with the budget kept or with nothing left to evict.  `loaded_partitions_mem` is
the size of the loaded partitions if partitions are loaded only while no other one is
(`memory_accounted`), and not otherwise (`loads_not_summed`).
-/

namespace Turso.HashTable

open State Option List Finset Keeps

variable {cfg : Config} {env : Environment} {state next : State}
variable {sp : SpillState} {key : List Value} {res : IOResult Bool}

/-! ## DISTINCT -/

theorem keeps_spilledKeyEquals {offset len : ℕ} (hsound : Sound state)
    (hsp : state.spillState = some sp)
    (hnx : spilledKeyEquals cfg env state sp offset len key = .ok (next, res)) :
    Keeps True state next := by
  have hread : ∀ read n, Keeps True state { state with
      spillState := some { sp with distinctKeyRead := read }, ioCount := n } := by
    intro read n
    have hsimilar := similar_keyRead hsp read n
    exact ⟨hsimilar.sound hsound, fun _ => hsimilar.exact, rfl⟩
  have hsubmit : submitKeyRead cfg env state sp offset len key = .ok (next, res) →
      Keeps True state next := by
    intro hnx
    unfold submitKeyRead at hnx
    split_ifs at hnx
    · obtain ⟨equal, -, hnx⟩ := bind_eq_ok.1 hnx
      cases hnx
      exact hread _ _
    · cases hnx
      exact hread _ _
  unfold spilledKeyEquals at hnx
  cases hk : sp.distinctKeyRead with
  | none =>
    rw [hk] at hnx
    exact hsubmit hnx
  | some read =>
    rw [hk] at hnx
    dsimp only at hnx
    split_ifs at hnx
    · exact hsubmit hnx
    · obtain ⟨equal, -, hnx⟩ := bind_eq_ok.1 hnx
      cases hnx
      exact hread _ _
    · cases hnx
      exact refl hsound

theorem keeps_spilledPartitionHasKey {i : ℕ} (hsound : Sound state)
    (hnx : spilledPartitionHasKey cfg env state i key = .ok (next, res)) :
    Keeps (LoadsAlone state i) state next := by
  unfold spilledPartitionHasKey at hnx
  split_ifs at hnx
  · cases hnx
    exact refl hsound
  · obtain ⟨⟨middle, done⟩, hload, hnx⟩ := bind_eq_ok.1 hnx
    cases done <;> cases hnx <;> exact keeps_loadLoop hsound hload

/-- Whether a key is looked for in its partition as a whole, which is loaded for that. -/
def LooksInPartition (place : Option ℕ) : Prop :=
  place.map PackedDistinctKeyPlace.get = some .onDiskWithoutOffset ∨
    place.map PackedDistinctKeyPlace.get = some .sharedByDifferentKeys

instance (place : Option ℕ) : Decidable (LooksInPartition place) :=
  inferInstanceAs (Decidable (_ ∨ _))

variable {place : Option ℕ}

theorem keeps_hasSpilledDup (hsound : Sound state) (hsp : state.spillState = some sp)
    (hnx : hasSpilledDup cfg env state sp key place = .ok (next, res)) :
    Keeps (LooksInPartition place → LoadsAlone state (sp.partitioning.index (cfg.hash key)))
      state next := by
  have hload : LooksInPartition place →
      spilledPartitionHasKey cfg env state (sp.partitioning.index (cfg.hash key)) key =
        .ok (next, res) →
      Keeps (LooksInPartition place → LoadsAlone state (sp.partitioning.index (cfg.hash key)))
        state next := by
    intro hlooks hnx
    obtain ⟨hsound', hexact, hphase⟩ := keeps_spilledPartitionHasKey hsound hnx
    exact ⟨hsound', fun halone => hexact (halone hlooks), hphase⟩
  unfold hasSpilledDup at hnx
  split at hnx
  · cases hnx
    exact refl hsound
  · cases hnx
    exact refl hsound
  · obtain ⟨hsound', hexact, hphase⟩ := keeps_spilledKeyEquals hsound hsp hnx
    exact ⟨hsound', fun _ => hexact trivial, hphase⟩
  · exact hload (.inl ‹_›) hnx
  · exact hload (.inr ‹_›) hnx

theorem keeps_insertNewDistinct (hsound : Sound state) (hinsertable : state.phase.insertable = true)
    (hnx : insertNewDistinct cfg env state key place = .ok (next, res)) :
    Keeps True state next := by
  unfold insertNewDistinct at hnx
  cases hsp : state.spillState with
  | none =>
    rw [hsp] at hnx
    cases hnx
  | some sp =>
    rw [hsp] at hnx
    obtain ⟨⟨middle, finished⟩, hmade, hnx⟩ := bind_eq_ok.1 hnx
    have hkeeps := keeps_spillPartitionsForEntry hsound hsp hinsertable hmade
    split at hnx
    · next heq =>
      cases heq
      cases hnx
      exact hkeeps
    · next heq =>
      cases heq
      cases hsp' : middle.spillState with
      | none =>
        rw [hsp'] at hnx
        cases hnx
      | some sp' =>
        rw [hsp'] at hnx
        cases hnx
        exact hkeeps.trans (keeps_bufferEntry hkeeps.sound hsp'
          (sp'.partitioning.index_lt _) (cfg.entry key) _ _)

variable (config : Config)

/-- A key that is not in the buffer of its partition is looked for in the partition only while no
other one is loaded. -/
def DistinctLoadsAlone (state : State) (spill : SpillState) (key : List Value) : Prop :=
  let index := spill.partitioning.index (config.hash key)
  config.hasKey (spill.partitionBuffers index).entries key = false →
    LooksInPartition (spill.distinctKeyPlaces index (config.hash key)) → LoadsAlone state index

/-- `insert_distinct` of a table that has spilled. -/
theorem keeps_insertDistinctSpilled (hsound : Sound state) (hsp : state.spillState = some sp)
    (hinsertable : state.phase.insertable = true)
    (hnx : insertDistinctSpilled cfg env state sp key = .ok (next, res)) :
    Keeps (DistinctLoadsAlone cfg state sp key) state next := by
  unfold insertDistinctSpilled at hnx
  dsimp only at hnx
  split_ifs at hnx with hbuffered
  · cases hnx
    exact refl hsound
  obtain ⟨⟨middle, done⟩, hdup, hnx⟩ := bind_eq_ok.1 hnx
  obtain ⟨hsound', hexact, hphase⟩ := keeps_hasSpilledDup hsound hsp hdup
  have hkeeps : Keeps (DistinctLoadsAlone cfg state sp key) state middle :=
    ⟨hsound', fun halone => hexact (halone (Bool.eq_false_of_not_eq_true hbuffered)), hphase⟩
  rcases done with (_ | _) | _
  · exact hkeeps.trans (keeps_insertNewDistinct hkeeps.sound (hkeeps.phase ▸ hinsertable) hnx)
  all_goals
    cases hnx
    exact hkeeps

/-- What a call leaves; the memory of loaded partitions only under a condition. -/
structure Counts (condition : Prop) (state next : State) : Prop where
  sound : Sound next
  exact : condition → Exact state → Exact next

variable {condition : Prop}

theorem Keeps.counts (hkeeps : Keeps condition state next) : Counts condition state next :=
  ⟨hkeeps.sound, hkeeps.exact⟩

theorem Counts.mono {condition' : Prop} (hcounts : Counts condition state next)
    (himp : condition' → condition) : Counts condition' state next :=
  ⟨hcounts.sound, hcounts.exact ∘ himp⟩

/-- A call that is made only while rows are inserted. -/
theorem insertable_of_ok {α : Type} {error : LimboError} {rest : Except LimboError α} {value : α}
    (h : (if !state.phase.insertable then .error error else rest) = .ok value) :
    state.phase.insertable = true ∧ rest = .ok value := by
  cases hinsertable : state.phase.insertable <;> simp_all

theorem ne_closed_of_insertable (hinsertable : state.phase.insertable = true) :
    state.phase ≠ .closed := by
  intro hclosed
  rw [hclosed] at hinsertable
  cases hinsertable

theorem counts_insertDistinct (hsound : Sound state)
    (hnx : insertDistinct cfg env state key = .ok (next, res)) :
    Counts (∀ spill, state.spillState = some spill → DistinctLoadsAlone cfg state spill key)
      state next := by
  unfold insertDistinct at hnx
  obtain ⟨hinsertable, hnx⟩ := insertable_of_ok hnx
  cases hsp : state.spillState with
  | some sp =>
    rw [hsp] at hnx
    obtain ⟨hsound', hexact, -⟩ := keeps_insertDistinctSpilled hsound hsp hinsertable hnx
    exact ⟨hsound', fun halone => hexact (halone sp rfl)⟩
  | none =>
    rw [hsp] at hnx
    dsimp only at hnx
    split_ifs at hnx
    · cases hnx
      exact (Keeps.refl hsound).counts
    · set partitioning := choosePartitioning cfg state (sizeFromValues key [])
      set sp := recordDistinctKeyPlaces
        (redistributeToPartitions (.new partitioning) state.buckets)
      obtain ⟨hstarted, hexact, hno⟩ := @sound_startSpill _ sp partitioning _ hsound hsp rfl
      obtain ⟨hsound', hexact', -⟩ := keeps_insertDistinctSpilled hstarted rfl rfl hnx
      refine ⟨hsound', fun _ _ => hexact' (fun _ _ partition hpartition => ?_) hexact⟩
      change sp.partitions _ = some partition at hpartition
      rw [hno] at hpartition
      cases hpartition
    · cases hnx
      exact (keeps_bucketEntry hsound hsp (ne_closed_of_insertable hinsertable) _).counts.mono
        fun _ => trivial

/-! ## The build side of a join -/

theorem keeps_insertEntry (hsound : Sound state) (hopen : state.phase ≠ .closed) (e : HashEntry) :
    Keeps True state (insertEntry state e) := by
  unfold insertEntry
  cases hsp : state.spillState with
  | none => exact keeps_bucketEntry hsound hsp hopen e
  | some sp =>
    exact keeps_bufferEntry hsound hsp (sp.partitioning.index_lt _) e sp.distinctKeyPlaces _

/-- The table begins to spill if it has not done so before. -/
theorem ensureSpilled_spec {entrySize : ℕ} (hsound : Sound state)
    (hinsertable : state.phase.insertable = true) :
    Counts True state (ensureSpilled cfg state entrySize).1 ∧
      (ensureSpilled cfg state entrySize).1.spillState =
        some (ensureSpilled cfg state entrySize).2 ∧
      (ensureSpilled cfg state entrySize).1.phase.insertable = true := by
  unfold ensureSpilled
  cases hspill : state.spillState with
  | some sp => exact ⟨(refl hsound).counts, hspill, hinsertable⟩
  | none =>
    obtain ⟨hstarted, hexact, -⟩ := sound_startSpill hsound hspill rfl
    exact ⟨⟨hstarted, fun _ _ => hexact⟩, rfl, rfl⟩

variable {res : IOResult Unit}

theorem counts_insertPending {pending : PendingHashInsert}
    (hsound : Sound state) (hnx : insertPending cfg env state pending = .ok (next, res)) :
    Counts True state next := by
  unfold insertPending at hnx
  obtain ⟨hinsertable, hnx⟩ := insertable_of_ok hnx
  dsimp only at hnx
  set entry : HashEntry :=
    ⟨cfg.hash pending.keyValues, pending.keyValues, pending.rowid, pending.payloadValues⟩
  split_ifs at hnx
  · cases hnx
    exact (refl hsound).counts
  · obtain ⟨⟨hspilled, hexact⟩, hsp, hinsertable'⟩ :=
      @ensureSpilled_spec cfg _ entry.sizeBytes hsound hinsertable
    obtain ⟨⟨middle, finished⟩, hmade, hnx⟩ := bind_eq_ok.1 hnx
    have hkeeps := keeps_spillPartitionsForEntry hspilled hsp hinsertable' hmade
    have hopen : middle.phase ≠ .closed := ne_closed_of_insertable (hkeeps.phase ▸ hinsertable')
    split at hnx
    · next heq =>
      cases heq
      cases hnx
      exact ⟨hkeeps.sound, fun _ h => hkeeps.exact trivial (hexact trivial h)⟩
    · next heq =>
      cases heq
      cases hnx
      have hlast := hkeeps.trans (keeps_insertEntry hkeeps.sound hopen entry)
      exact ⟨hlast.sound, fun _ h => hlast.exact trivial (hexact trivial h)⟩
  · cases hnx
    exact (keeps_insertEntry hsound (ne_closed_of_insertable hinsertable) entry).counts

theorem keeps_spillTargets {targets : List ℕ} (hsound : Sound state)
    (hinsertable : state.phase.insertable = true)
    (hnx : spillTargets env targets state = .ok (next, res)) : Keeps True state next := by
  induction targets generalizing state with
  | nil =>
    cases hnx
    exact refl hsound
  | cons i targets ih =>
    rw [spillTargets] at hnx
    cases hsp : state.spillState with
    | none =>
      rw [hsp] at hnx
      cases hnx
    | some sp =>
      rw [hsp] at hnx
      obtain ⟨⟨middle, finished⟩, hmade, hnx⟩ := bind_eq_ok.1 hnx
      have hkeeps := keeps_spillMultiplePartitions hsound hsp hinsertable (nodup_singleton i) hmade
      split at hnx
      · next heq =>
        cases heq
        cases hnx
        exact hkeeps
      · next heq =>
        cases heq
        exact hkeeps.trans (ih hkeeps.sound (hkeeps.phase ▸ hinsertable) hnx)

theorem partitionBucketMem_foldl {buckets : Buckets} (hbuckets : buckets ≠ [])
    (entries : List HashEntry) :
    partitionBucketMem (entries.foldl insertBucket buckets) =
      partitionBucketMem buckets + bucketSize entries := by
  induction entries generalizing buckets with
  | nil => rfl
  | cons e entries ih =>
    have hinserted : insertBucket buckets e ≠ [] := by
      rw [← length_pos_iff_ne_nil, length_insertBucket]
      exact length_pos_of_ne_nil hbuckets
    rw [foldl_cons, ih hinserted, partitionBucketMem_insertBucket hbuckets]
    simp only [bucketSize, List.map_cons, List.sum_cons]
    omega

/-- Partitions are made of buffers, in memory. -/
structure Materializes (spill after : SpillState) : Prop where
  accounts : SpillAccounts after
  held : after.bufferedSize + after.inMemorySize = spill.bufferedSize + spill.inMemorySize
  loadedSize : after.loadedSize = spill.loadedSize
  loaded : ∀ index partition, after.partitions index = some partition → partition.state = .loaded →
    spill.partitions index = some partition

theorem materializes_partition (haccounts : SpillAccounts sp) (i : ℕ) :
    Materializes sp (materializePartitionInMemory sp i) := by
  unfold materializePartitionInMemory
  dsimp only
  split_ifs with hskip
  · exact ⟨haccounts, rfl, rfl, fun _ _ h _ => h⟩
  rw [not_or, Bool.not_eq_true, isSome_eq_false_iff, isNone_iff_eq_none] at hskip
  obtain ⟨hno, hentries⟩ := hskip
  have hi := haccounts.index_lt_of_buffer hentries
  set q : SpilledPartition := { SpilledPartition.new with
    state := .inMemory
    buckets := (sp.partitionBuffers i).entries.foldl insertBucket (replicate
      (max (nextPowerOfTwo (sp.partitionBuffers i).entries.length) 64) []) } with hq
  have hsize : inMemorySize (some q) = bucketSize (sp.partitionBuffers i).entries := by
    rw [inMemorySize, if_pos rfl, hq]
    rw [partitionBucketMem_foldl (by simp), partitionBucketMem]
    simp [bucketSize]
  have hbuffers := sum_update sp.partitionBuffers (fun buffer => bucketSize buffer.entries)
    hi .empty
  have hinMemory := sum_update sp.partitions inMemorySize hi (some q)
  have hld := sum_update sp.partitions loadedSize hi (some q)
  rw [hno] at hinMemory hld
  have hempty : bucketSize PartitionBuffer.empty.entries = 0 := rfl
  have hnoneSizes : inMemorySize none = 0 ∧ loadedSize none = 0 := ⟨rfl, rfl⟩
  have hnotLoaded : loadedSize (some q) = 0 := rfl
  have hwell : q.WellFormed := ⟨fun _ => ⟨rfl, rfl⟩, by simp [hq], by rintro ⟨⟩, by simp [hq, SpilledPartition.new]⟩
  refine ⟨(@SpillAccounts.setBuffer _ _ haccounts hi .empty rfl).setPartition hi hwell,
    ?_, ?_, PartialMap.forall_update.2 ⟨by rintro ⟨⟩, fun x p _ hp _ => hp⟩⟩
  · unfold SpillState.bufferedSize SpillState.inMemorySize
    dsimp only
    omega
  · unfold SpillState.loadedSize
    dsimp only
    omega

theorem materializes_foldl (haccounts : SpillAccounts sp) (indices : List ℕ) :
    Materializes sp (indices.foldl materializePartitionInMemory sp) := by
  induction indices generalizing sp with
  | nil => exact ⟨haccounts, rfl, rfl, fun _ _ h _ => h⟩
  | cons i indices ih =>
    have ha := materializes_partition haccounts i
    have hrest := ih ha.accounts
    exact ⟨hrest.accounts, hrest.held.trans ha.held, hrest.loadedSize.trans ha.loadedSize,
      fun x p hp hld => ha.loaded x p (hrest.loaded x p hp hld) hld⟩

theorem counts_setPhase {phase : HashTableState} (hsound : Sound s) (hopen : s.phase ≠ .closed)
    (hphase : phase.insertable = false) : Counts True s { s with phase := phase } := by
  refine ⟨⟨⟨hsound.accounts.memUsed, hsound.accounts.spill, fun hno => ?_, fun h => ?_⟩,
    hsound.listed⟩, fun _ hexact => hexact⟩
  · obtain ⟨hloadedMem, hcovered, hempty, hbuckets⟩ := hsound.accounts.unspilled hno
    exact ⟨hloadedMem, hcovered, hempty, fun _ => hbuckets hopen⟩
  · rw [hphase] at h
    cases h

/-- The last part of `finalize_build`. -/
theorem counts_materialize (hsound : Sound s) (hopen : s.phase ≠ .closed) (indices : List ℕ) :
    Counts True s { s with
      spillState := s.spillState.map fun sp =>
        indices.foldl materializePartitionInMemory sp
      phase := .probing } := by
  cases hsp : s.spillState with
  | none =>
    have hcounts := counts_setPhase hsound hopen
      (show HashTableState.probing.insertable = false from rfl)
    rw [hsp] at hcounts
    exact hcounts
  | some sp =>
    obtain ⟨haccounts, hbuckets⟩ := hsound.accounts.spill sp hsp
    obtain ⟨hafter, hheld, hloadedSize, hld⟩ := materializes_foldl haccounts indices
    refine ⟨⟨accounts_of_spill rfl hbuckets ?_ hafter nofun, ?_⟩, fun _ hexact => ?_⟩
    · exact (hsound.accounts.memUsed_eq hsp).trans hheld.symm
    · intro i p hp hs hexcept
      exact hsound.listed i p ((partition_of_spill hsp i).trans (hld i p hp hs)) hs hexcept
    · rw [Exact, State.loadedSize, hsp] at hexact
      exact hexact.trans hloadedSize.symm

theorem counts_finalizeBuild (hsound : Sound state)
    (hnx : finalizeBuild env state = .ok (next, res)) : Counts True state next := by
  unfold finalizeBuild at hnx
  obtain ⟨hinsertable, hnx⟩ := insertable_of_ok hnx
  cases hsp : state.spillState with
  | none =>
    have hcounts := counts_setPhase hsound (ne_closed_of_insertable hinsertable)
      (show HashTableState.probing.insertable = false from rfl)
    rw [hsp] at hnx hcounts
    cases hnx
    exact hcounts
  | some sp =>
    rw [hsp] at hnx
    dsimp only at hnx
    split_ifs at hnx
    · cases hnx
      exact (refl hsound).counts
    obtain ⟨⟨middle, finished⟩, htargets, hnx⟩ := bind_eq_ok.1 hnx
    have hkeeps := keeps_spillTargets hsound hinsertable htargets
    have hopen : middle.phase ≠ .closed := ne_closed_of_insertable (hkeeps.phase ▸ hinsertable)
    cases finished with
    | io =>
      cases hnx
      exact hkeeps.counts
    | done =>
      cases hnx
      obtain ⟨hlast, hexact⟩ := counts_materialize hkeeps.sound hopen _
      exact ⟨hlast, fun _ h => hexact trivial (hkeeps.exact trivial h)⟩

/-! ## The other calls -/

/-- `evict_all_loaded_partitions`: a loaded partition has chunks. -/
theorem sound_evictAllLoadedPartitions (hsound : Sound state) :
    Sound (evictAllLoadedPartitions state) ∧ Exact (evictAllLoadedPartitions state) := by
  have hno : NoneLoaded (evictAllLoadedPartitions state) := by
    intro index partition hpartition
    cases hsp : state.spillState with
    | none => simp [evictAllLoadedPartitions, State.partition, hsp] at hpartition
    | some sp =>
      simp only [evictAllLoadedPartitions, State.partition, hsp, map_some,
        bind_some, map_eq_some_iff] at hpartition
      obtain ⟨before, hb, rfl⟩ := hpartition
      have hwell := (hsound.accounts.spill sp hsp).1.wellFormed index before hb
      split_ifs with hevicted
      · rintro ⟨⟩
      · exact fun hld => hevicted ⟨hld, (hwell.loaded hld).1⟩
  refine ⟨⟨?_, fun index partition hpartition hld _ => ?_⟩, hno.loadedSize_eq.symm⟩
  · cases hsp : state.spillState with
    | none =>
      have hunchanged : evictAllLoadedPartitions state =
          { state with loadedPartitionsLru := [], loadedPartitionsMem := 0 } := by
        simp [evictAllLoadedPartitions, hsp]
      rw [hunchanged]
      refine ⟨hsound.accounts.memUsed, hsound.accounts.spill, fun h => ?_, hsound.accounts.building⟩
      obtain ⟨-, hcovered, hempty, hbuckets⟩ := hsound.accounts.unspilled h
      exact ⟨rfl, hcovered, hempty, hbuckets⟩
    | some sp =>
      obtain ⟨haccounts, hbuckets⟩ := hsound.accounts.spill sp hsp
      have hevicted : (evictAllLoadedPartitions state).spillState = some { sp with
          partitions := fun index => (sp.partitions index).map fun partition =>
            if partition.state = .loaded ∧ partition.chunks ≠ [] then partition.unload
            else partition } := by
        rw [evictAllLoadedPartitions, hsp]
        rfl
      have hreplaces : ∀ partition : SpilledPartition, partition.WellFormed →
          Replaces (if partition.state = .loaded ∧ partition.chunks ≠ [] then partition.unload
            else partition) partition := by
        intro partition hwell
        split_ifs with hld
        · exact replaces_unload hwell hld.1 hld.2
        · exact ⟨hwell, rfl, id⟩
      refine accounts_of_spill hevicted hbuckets ?_ ⟨haccounts.bufferMem, ?_, ?_⟩ ?_
      · refine (hsound.accounts.memUsed_eq hsp).trans ?_
        refine congrArg (sp.bufferedSize + ·) (sum_congr rfl fun index _ => ?_)
        dsimp only
        cases hpartition : sp.partitions index with
        | none => rfl
        | some partition =>
          exact (hreplaces partition (haccounts.wellFormed index partition hpartition)).inMemory.symm
      · intro index hindex
        obtain ⟨hbuffer, hpartition⟩ := haccounts.outside index hindex
        exact ⟨hbuffer, by dsimp only; rw [hpartition]; rfl⟩
      · intro index partition hpartition
        obtain ⟨before, hb, rfl⟩ := map_eq_some_iff.1 hpartition
        exact (hreplaces before (haccounts.wellFormed index before hb)).wellFormed
      · intro hinsertable index partition hpartition
        obtain ⟨before, hb, rfl⟩ := map_eq_some_iff.1 hpartition
        have hreplaces' := hreplaces before (haccounts.wellFormed index before hb)
        exact fun hstate => hsound.accounts.building hinsertable index before
          ((partition_of_spill hsp index).trans hb) (hreplaces'.building hstate)
  · exact absurd hld (hno index partition hpartition)

theorem sound_of_empty (hsp : state.spillState = none) (hmemUsed : state.memUsed = 0)
    (hempty : state.buckets.flatten = []) (hloadedMem : state.loadedPartitionsMem = 0)
    (hbuckets : state.phase ≠ .closed → state.buckets ≠ []) : Sound state ∧ Exact state := by
  have hp : ∀ i, state.partition i = none := by
    intro i
    rw [State.partition, hsp]
    rfl
  refine ⟨⟨⟨?_, ?_, fun _ => ⟨hloadedMem, ?_, fun _ => hmemUsed, hbuckets⟩, ?_⟩, ?_⟩, ?_⟩
  · rw [hmemUsed, heldSize, hsp, partitionBucketMem_eq, hempty]
    rfl
  · intro sp hsp'
    rw [hsp] at hsp'
    cases hsp'
  · intro i hi
    have hm : state.buckets.getD i [] ∈ state.buckets := by
      rw [getD_eq_getElem?_getD] at hi ⊢
      cases hbucket : state.buckets[i]? with
      | none => simp [hbucket] at hi
      | some bucket => exact mem_of_getElem? hbucket
    exact absurd (flatten_eq_nil_iff.1 hempty _ hm) hi
  · intro _ i p hsome
    rw [hp] at hsome
    cases hsome
  · intro i p hsome
    rw [hp] at hsome
    cases hsome
  · rw [Exact, State.loadedSize, hsp, hloadedMem]
    rfl

theorem eq_nil_of_bucketSize {es : List HashEntry} (hsize : bucketSize es = 0) : es = [] := by
  cases es with
  | nil => rfl
  | cons e es =>
    simp [bucketSize, HashEntry.sizeBytes, sizeFromValues] at hsize

theorem sound_clear (hsound : Sound state) (hopen : state.phase ≠ .closed) :
    Sound (clear cfg state) ∧ Exact (clear cfg state) := by
  unfold clear
  cases hsp : state.spillState with
  | some sp => exact sound_of_empty rfl rfl (by simp) rfl (by simp)
  | none =>
    obtain ⟨-, hcovered, hempty, hbuckets⟩ := hsound.accounts.unspilled hsp
    split_ifs with hes
    · have hmemUsed := hsound.accounts.memUsed
      rw [heldSize, hsp, hempty hes, partitionBucketMem_eq] at hmemUsed
      exact sound_of_empty rfl (hempty hes) (eq_nil_of_bucketSize (by simpa using hmemUsed.symm))
        rfl fun _ => hbuckets hopen
    · refine sound_of_empty rfl rfl ?_ rfl ?_
      · rw [flatten_eq_nil_iff]
        intro bucket hbucket
        obtain ⟨i, hi, rfl⟩ := mem_mapIdx.1 hbucket
        split_ifs with hlisted
        · rfl
        · by_contra hne
          refine hlisted (hcovered i ?_)
          simpa [getD_eq_getElem?_getD, hi] using hne
      · intro _
        simpa using hbuckets hopen

/-! ## Runs -/

/-- A call on a table, as far as entries and their memory go.  A load is made turn by turn, see
`Event.turn`. -/
inductive Op where
  | insertPending (pending : PendingHashInsert)
  | insertDistinct (key : List Value)
  | finalizeBuild
  /-- `probe` and `probe_partition` touch a partition. -/
  | probe (index : ℕ)
  | beginProbePass
  | graceBegin
  /-- `grace_load_current_partition` before the load, and `grace_advance_partition`. -/
  | evictAll
  | clear
  | close

/-- A call, one turn of the loop of `load_spilled_partition`, or the end of all IO that was
submitted. -/
inductive Event where
  | call (op : Op)
  | turn (index : ℕ)
  | complete

/-- The state after a call. -/
def Op.call (env : Environment) (state : State) : Op → Except LimboError State
  | insertPending pending => (HashTable.insertPending config env state pending).map Prod.fst
  | insertDistinct key => (HashTable.insertDistinct config env state key).map Prod.fst
  | finalizeBuild => (HashTable.finalizeBuild env state).map Prod.fst
  | probe index => .ok (touchPartitionLru state index)
  | beginProbePass => HashTable.beginProbePass state
  | graceBegin => .ok { state with phase := .graceProcessing }
  | evictAll => .ok (evictAllLoadedPartitions state)
  | clear => .ok (HashTable.clear config state)
  | close => .ok (HashTable.close state)

/-- Calls are made while no write is under way, and not on a table that is closed, which is dropped. -/
def State.callable (state : State) : Bool :=
  state.phase ≠ .closed && state.spillState.all fun spill => spill.inFlight = none

/-- The state after an event that is possible and does not fail. -/
def Event.step (env : Environment) (state : State) : Event → Option State
  | call op => if state.callable then (op.call config env state).toOption else none
  | turn index =>
    if state.callable then ((loadTurn config env state index).map Prod.fst).toOption else none
  | complete => some state.complete

/-- The state after a sequence of events. -/
def run (env : Environment) (events : List Event) (state : State) : Option State :=
  events.foldlM (fun state event => event.step config env state) state

/-- Whether a partition is loaded. -/
def State.anyLoaded (state : State) : Bool :=
  state.spillState.any fun spill => (List.range spill.partitioning.count).any fun index =>
    (spill.partitions index).any fun partition => partition.state = .loaded

/-- Whether a partition is in memory or no partition is loaded. -/
def State.loadsAlone (state : State) (index : ℕ) : Bool :=
  (state.partition index).all SpilledPartition.isLoaded || !state.anyLoaded

/-- Whether an event loads a partition only while no other one is loaded. -/
def Event.alone (state : State) : Event → Bool
  | turn index => state.loadsAlone index
  | call (.insertDistinct key) => state.spillState.all fun spill =>
    let index := spill.partitioning.index (config.hash key)
    config.hasKey (spill.partitionBuffers index).entries key ||
      !decide (LooksInPartition (spill.distinctKeyPlaces index (config.hash key))) ||
      state.loadsAlone index
  | _ => true

/-- The events of a run all load alone. -/
def runsAlone (config : Config) (env : Environment) : List Event → State → Bool
  | [], _ => true
  | event :: events, state => event.alone config state &&
      (event.step config env state).all (runsAlone config env events)

theorem Sound.noneLoaded (hsound : Sound state) (hno : state.anyLoaded = false) :
    NoneLoaded state := by
  intro i p hp hld
  obtain ⟨sp, hsp⟩ := isSome_iff_exists.1 (isSome_of_partition hp)
  rw [partition_of_spill hsp] at hp
  have hi := (hsound.accounts.spill sp hsp).1.index_lt_of_partition hp
  simp only [State.anyLoaded, hsp, any_some, List.any_eq_false, List.mem_range] at hno
  have := hno i hi
  rw [show sp.partitions i = some p from hp] at this
  simp [hld] at this

theorem Sound.loadsAlone {index : ℕ} (hsound : Sound state)
    (halone : state.loadsAlone index = true) : LoadsAlone state index := by
  intro partition hpartition hld
  rw [State.loadsAlone, hpartition] at halone
  exact hsound.noneLoaded (by simpa [hld] using halone)

theorem exists_of_map_fst {α ε : Type} {res : Except ε (State × α)}
    (hnx : res.map Prod.fst = .ok next) : ∃ v, res = .ok (next, v) := by
  cases res with
  | error error => cases hnx
  | ok res =>
    cases hnx
    exact ⟨res.2, rfl⟩

theorem counts_call {op : Op} (hsound : Sound state) (hopen : state.phase ≠ .closed)
    (hnx : op.call cfg env state = .ok next) :
    Counts ((Event.call op).alone cfg state = true) state next := by
  cases op with
  | insertPending pending =>
    obtain ⟨_, hres⟩ := exists_of_map_fst hnx
    exact (counts_insertPending hsound hres).mono fun _ => trivial
  | insertDistinct k =>
    obtain ⟨_, hres⟩ := exists_of_map_fst hnx
    refine (counts_insertDistinct hsound hres).mono fun halone sp hsp hbuffered hlooks => ?_
    simp only [Event.alone, hsp, all_some, hbuffered, hlooks, decide_true, Bool.not_true,
      Bool.false_or] at halone
    exact hsound.loadsAlone halone
  | finalizeBuild =>
    obtain ⟨_, hres⟩ := exists_of_map_fst hnx
    exact (counts_finalizeBuild hsound hres).mono fun _ => trivial
  | probe i =>
    cases hnx
    exact ⟨hsound.touch, fun _ hexact => hexact⟩
  | beginProbePass =>
    simp only [Op.call, beginProbePass] at hnx
    split_ifs at hnx with hphase
    cases hnx
    obtain ⟨hevicted, hexact⟩ := sound_evictAllLoadedPartitions hsound
    exact ⟨(counts_setPhase hevicted hopen rfl).sound, fun _ _ => hexact⟩
  | graceBegin =>
    cases hnx
    exact (counts_setPhase hsound hopen rfl).mono fun _ => trivial
  | evictAll =>
    cases hnx
    obtain ⟨hevicted, hexact⟩ := sound_evictAllLoadedPartitions hsound
    exact ⟨hevicted, fun _ _ => hexact⟩
  | clear =>
    cases hnx
    obtain ⟨hcleared, hexact⟩ := @sound_clear cfg _ hsound hopen
    exact ⟨hcleared, fun _ _ => hexact⟩
  | close =>
    cases hnx
    obtain ⟨hclosed, hexact⟩ := @sound_of_empty (close state) rfl rfl rfl rfl nofun
    exact ⟨hclosed, fun _ _ => hexact⟩

theorem counts_step {event : Event} (hsound : Sound state)
    (hstep : event.step cfg env state = some next) :
    Counts (event.alone cfg state = true) state next := by
  cases event with
  | call op =>
    simp only [Event.step] at hstep
    split_ifs at hstep with hcallable
    have hopen : state.phase ≠ .closed := by
      simp only [callable, Bool.and_eq_true, decide_eq_true_eq] at hcallable
      exact hcallable.1
    cases hcall : op.call cfg env state with
    | error error =>
      rw [hcall] at hstep
      cases hstep
    | ok res =>
      rw [hcall] at hstep
      cases hstep
      exact counts_call hsound hopen hcall
  | turn i =>
    simp only [Event.step] at hstep
    split_ifs at hstep
    cases hturn : loadTurn cfg env state i with
    | error error =>
      rw [hturn] at hstep
      cases hstep
    | ok res =>
      obtain ⟨middle, turn⟩ := res
      rw [hturn] at hstep
      cases hstep
      rcases loadTurn_cases (fun p hp => hsound.wellFormed hp) hturn with
        ⟨-, rfl, rfl⟩ | ⟨p, hp, ⟨-, rfl, rfl⟩ | ⟨hloaded, hloads⟩⟩
      · exact (refl hsound).counts
      · exact ⟨hsound.touch, fun _ hexact => hexact⟩
      · obtain ⟨hmiddle, hunloaded⟩ := hsound.loadsChunk hp hloaded hloads
        exact ⟨hmiddle, fun halone hexact =>
          (hunloaded ⟨hexact, hsound.loadsAlone halone p hp hloaded⟩).1⟩
  | complete =>
    cases hstep
    have hsimilar := similar_complete state
    exact ⟨hsimilar.sound hsound, fun _ => hsimilar.exact⟩

theorem counts_run {events : List Event} (hsound : Sound state)
    (hrun : run cfg env events state = some next) :
    Counts (runsAlone cfg env events state = true) state next := by
  induction events generalizing state with
  | nil =>
    cases hrun
    exact (refl hsound).counts
  | cons event events ih =>
    obtain ⟨middle, hstep, hrest⟩ := bind_eq_some_iff.1 hrun
    obtain ⟨hmiddle, hexact⟩ := counts_step hsound hstep
    obtain ⟨hlast, hexact'⟩ := ih hmiddle hrest
    refine ⟨hlast, fun halone h => ?_⟩
    simp only [runsAlone, hstep, all_some, Bool.and_eq_true] at halone
    exact hexact' halone.2 (hexact halone.1 h)

theorem sound_new (cfg : Config) : Sound (.new cfg) ∧ Exact (.new cfg) :=
  sound_of_empty rfl rfl (by simp [new]) rfl
    (by simpa [new] using cfg.initialBuckets_pos.ne')

/-- In every state that events can reach, what is counted as used is what is held in buckets and
buffers, and evictions for a partition of any size leave the budget exceeded only if there is nothing
else to evict.  What is counted for loaded partitions is what they hold if partitions are loaded only
while no other one is. -/
theorem memory_accounted (config : Config) (env : Environment) (events : List Event) (final : State)
    (hrun : run config env events (.new config) = some final) :
    final.memUsed = final.heldSize ∧ (∀ index partition incomingMem, EvictedToFit config
        (evictPartitionsToFit config (final.setPartition index partition) incomingMem index)
        incomingMem index) ∧
      (runsAlone config env events (.new config) = true →
        final.loadedPartitionsMem = final.loadedSize) := by
  obtain ⟨hnew, hexact⟩ := sound_new config
  obtain ⟨hsound, hcounts⟩ := counts_run hnew hrun
  refine ⟨hsound.accounts.memUsed, ?_, fun halone => hcounts halone hexact⟩
  intro index partition incomingMem
  refine Listed.evictLoop_fits ?_ (Nat.lt_succ_self _)
  intro other p hp hloaded hexcept
  have hother : other ≠ index := fun heq => hexcept (congrArg some heq)
  rw [partition_setPartition_of_ne hother] at hp
  exact hsound.listed other p hp hloaded (by simp)

/-- A table with four partitions; the first byte of a blob is its partition. -/
def fourPartitions : Config where
  locales := noLocales
  hasher
    | [.u8 _, .bytes (byte :: _)] => UInt64.ofNat (byte.toNat * 2 ^ 62)
    | _ => 0
  collations := [.binary]
  initialBuckets := 1
  initialBuckets_pos := Nat.one_pos
  memBudget := 60
  trackMatched := false
  partitionCount := some ⟨2, by decide⟩

/-- Three rows and a large one in the partition of the third, which sends all three to disk. -/
def buildEvents : List Event :=
  [.call (.insertPending ⟨[.blob [0]], 1, []⟩), .call (.insertPending ⟨[.blob [1]], 2, []⟩),
    .call (.insertPending ⟨[.blob [2]], 3, []⟩),
    .call (.insertPending ⟨[.blob [2]], 4, [.blob (replicate 40 7)]⟩), .call .finalizeBuild]

/-- The load of a partition with one chunk. -/
def loadEvents (index : ℕ) : List Event :=
  [.turn index, .turn index]

theorem memory_accounted_one_load : ∃ final,
    run fourPartitions (fun _ => true) (buildEvents ++ loadEvents 0) (.new fourPartitions) =
        some final ∧ final.loadedPartitionsMem = 17 ∧ final.loadedPartitionsMem = final.loadedSize ∧
      final.memUsed = final.heldSize := by
  have hmap : (run fourPartitions (fun _ => true) (buildEvents ++ loadEvents 0)
      (.new fourPartitions)).map State.loadedPartitionsMem = some 17 := by decide +kernel
  have halone : runsAlone fourPartitions (fun _ => true) (buildEvents ++ loadEvents 0)
      (.new fourPartitions) = true := by decide +kernel
  obtain ⟨final, hrun, hmem⟩ := map_eq_some_iff.1 hmap
  obtain ⟨hused, -, hexact⟩ := memory_accounted _ _ _ _ hrun
  exact ⟨final, hrun, hmem, hexact halone, hused⟩

/-- Two partitions of 17 bytes each are loaded one after the other within the budget, as the scan for
unmatched rows does, and 17 bytes are counted for both. -/
theorem loads_not_summed : ∃ final,
    run fourPartitions (fun _ => true) (buildEvents ++ loadEvents 0 ++ loadEvents 1)
        (.new fourPartitions) = some final ∧
      final.loadedPartitionsMem = 17 ∧ final.loadedSize = 34 := by
  have hmap : (run fourPartitions (fun _ => true) (buildEvents ++ loadEvents 0 ++ loadEvents 1)
      (.new fourPartitions)).map (fun state => (state.loadedPartitionsMem, state.loadedSize)) =
        some (17, 34) := by decide +kernel
  obtain ⟨final, hrun, hmem⟩ := Option.map_eq_some_iff.1 hmap
  exact ⟨final, hrun, congrArg Prod.fst hmem, congrArg Prod.snd hmem⟩

end Turso.HashTable
