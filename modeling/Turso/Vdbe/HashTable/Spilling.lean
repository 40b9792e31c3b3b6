import Turso.Vdbe.HashTable.Resident

/-!
# The memory of a table that spills

Inserting and spilling (`core/vdbe/hash_table.rs`) keep the accounts of a table (`Keeps`).

`spill_multiple_partitions` serializes one buffer after the other.  What has been done after some of
them is `Spills`: the buffers have lost the bytes that the table is to be relieved of, the spilled
partitions are well formed, and no partition is loaded that was not loaded before.  One buffer does
this (`spills_spillBuffer`), and so does the loop (`spills_foldlM`); the write that follows changes
no sizes.  `Spills.keeps` takes the freed bytes from the table at once.  It needs that no partition
is kept in memory, which is so as long as entries are inserted (`Sound.noneKept`).

An entry goes to the buffer of its partition or, before the table spills, to a bucket; when spilling
begins, the entries of the buckets move to the buffers with their sizes (`sound_startSpill`).
-/

namespace Turso.HashTable

open Function Finset
open SpilledPartition (addChunk isLoaded_eq_false_iff new state_of_memory unload)

variable {cfg : Config} {env : Environment} {s : State}

/-! ## Spilling -/

/-- No partition was kept in memory. -/
def NoneKept (spill : SpillState) : Prop :=
  ∀ index partition, spill.partitions index = some partition → partition.state ≠ .inMemory

variable {sp : SpillState}

theorem NoneKept.inMemorySize_eq (hno : NoneKept sp) : sp.inMemorySize = 0 := by
  refine sum_eq_zero fun i _ => ?_
  cases hp : sp.partitions i with
  | none => rfl
  | some p => exact if_neg (hno i p hp)

/-- Buffers of a certain size are written to disk; a loaded partition that gets a chunk is
unloaded. -/
structure Spills (freed : ℕ) (before after : SpillState × ℕ) : Prop where
  partitioning : after.1.partitioning = before.1.partitioning
  buffered : after.1.bufferedSize + freed = before.1.bufferedSize
  accounts : SpillAccounts after.1
  noneKept : NoneKept after.1
  exact : before.2 = before.1.loadedSize → after.2 = after.1.loadedSize
  loaded : ∀ index partition, after.1.partitions index = some partition → partition.state = .loaded →
    before.1.partitions index = some partition

theorem Spills.trans {freed freed' : ℕ} {a b third : SpillState × ℕ}
    (ha : Spills freed a b) (hb : Spills freed' b third) :
    Spills (freed + freed') a third where
  partitioning := hb.partitioning.trans ha.partitioning
  buffered := by
    have h := ha.buffered
    have h' := hb.buffered
    omega
  accounts := hb.accounts
  noneKept := hb.noneKept
  exact := hb.exact ∘ ha.exact
  loaded := by
    intro i p hp hld
    exact ha.loaded i p (hb.loaded i p hp hld) hld

/-- The partition that a chunk is added to. -/
theorem partitionForSpill_addChunk {existing : Option SpilledPartition} {c : SpillChunk}
    (hwell : ∀ p, existing = some p → p.WellFormed)
    (hkept : ∀ p, existing = some p → p.state ≠ .inMemory)
    (hc : c.sizeBytes ≠ 0) :
    ((partitionForSpill existing).1.addChunk c).WellFormed ∧
      ((partitionForSpill existing).1.addChunk c).isLoaded = false ∧
      (partitionForSpill existing).2 = loadedSize existing := by
  cases existing with
  | none =>
    refine ⟨⟨by rintro ⟨⟩, fun _ => ?_, by rintro ⟨⟩, ?_⟩, rfl, rfl⟩
    · simp [partitionForSpill, addChunk, new]
    · simpa [partitionForSpill, addChunk, new] using hc
  | some p =>
    have hp := hwell p rfl
    rw [partitionForSpill]
    split_ifs with hld
    · refine ⟨⟨by rintro ⟨⟩, fun _ => ?_, by rintro ⟨⟩, ?_⟩, rfl, ?_⟩
      · simp [unload, addChunk, new]
      · exact List.forall_mem_append.2 ⟨hp.sizes, List.forall_mem_singleton.2 hc⟩
      · exact (hp.loaded hld).2.trans (if_pos hld).symm
    · have hs : p.state = .onDisk ∨ p.state = .loading := by
        cases hs : p.state <;> simp_all
      refine ⟨⟨fun h => absurd h (hkept p rfl), fun h => ?_, fun h => absurd h hld, ?_⟩,
        isLoaded_eq_false_iff.2 hs, (if_neg hld).symm⟩
      · have := hp.onDisk h
        simp only [addChunk, List.length_append]
        omega
      · exact List.forall_mem_append.2 ⟨hp.sizes, List.forall_mem_singleton.2 hc⟩

variable {data : Bytes}

theorem length_serializeBuffer_ne_zero {places places' : Places} {offset : ℕ}
    {es : List HashEntry} (hes : es ≠ [])
    (hdata : serializeBuffer places offset es = .ok (data, places')) : data.length ≠ 0 := by
  obtain ⟨e, es, rfl⟩ := List.exists_cons_of_ne_nil hes
  rw [serializeBuffer] at hdata
  simp only [bind, Except.bind] at hdata
  split at hdata
  · cases hdata
  split at hdata
  · cases hdata
  cases hdata
  have hlen : 8 ≤ e.serialize.length := by
    simp [HashEntry.serialize]
  simp only [List.length_append]
  omega

variable {res : SpillState × ℕ × Bytes}

/-- One partition of `spill_multiple_partitions`. -/
theorem spills_spillBuffer {loadedMem index : ℕ} {w : Bytes}
    (haccounts : SpillAccounts sp) (hkept : NoneKept sp)
    (hes : (sp.partitionBuffers index).entries ≠ [])
    (hsp : spillBuffer (sp, loadedMem, w) index = .ok res) :
    Spills (sp.partitionBuffers index).memUsed (sp, loadedMem) (res.1, res.2.1) ∧
      ∀ other ≠ index, res.1.partitionBuffers other = sp.partitionBuffers other := by
  unfold spillBuffer at hsp
  dsimp only at hsp
  obtain ⟨⟨data, places⟩, hdata, hsp⟩ := bind_eq_ok.1 hsp
  cases hsp
  have hindex := haccounts.index_lt_of_buffer hes
  obtain ⟨hwell, hld, hfreed⟩ := @partitionForSpill_addChunk (sp.partitions index)
    ⟨sp.nextSpillOffset + w.length, data.length, (sp.partitionBuffers index).entries.length⟩
    (haccounts.wellFormed index) (hkept index) (length_serializeBuffer_ne_zero hes hdata)
  generalize hadded : (partitionForSpill (sp.partitions index)).1.addChunk _ = added at *
  have hstates := isLoaded_eq_false_iff.1 hld
  have hbuffers := sum_update sp.partitionBuffers (fun buffer => bucketSize buffer.entries)
    hindex .empty
  have hsizes := sum_update sp.partitions loadedSize hindex (some added)
  have hno : loadedSize (some added) = 0 := if_neg (by rcases hstates with h | h <;> simp [h])
  obtain ⟨hbufferMem, houtside, hwellFormed⟩ :=
    (@SpillAccounts.setBuffer _ _ haccounts hindex .empty rfl).setPartition hindex hwell
  refine ⟨⟨rfl, ?_, ⟨hbufferMem, houtside, hwellFormed⟩, ?_, ?_, ?_⟩,
    fun other hother => update_of_ne hother _ _⟩
  · rw [haccounts.bufferMem index]
    exact hbuffers.trans (by rfl)
  · refine PartialMap.forall_update.2 ⟨?_, fun other p _ hp => hkept other p hp⟩
    rcases hstates with h | h <;> simp [h]
  · intro hexact
    change loadedMem = sp.loadedSize at hexact
    change loadedMem - (partitionForSpill (sp.partitions index)).2 =
      ∑ other ∈ range sp.partitioning.count,
        loadedSize (update sp.partitions index (some added) other)
    have hsum : sp.loadedSize = ∑ other ∈ range sp.partitioning.count,
      loadedSize (sp.partitions other) := rfl
    omega
  · refine PartialMap.forall_update.2 ⟨fun hp' => ?_, fun other p _ hp _ => hp⟩
    rcases hstates with h | h <;> simp [h] at hp'

/-- The loop of `spill_multiple_partitions`. -/
theorem spills_foldlM {indices : List ℕ} (hnodup : indices.Nodup)
    {loadedMem : ℕ} {w : Bytes}
    (haccounts : SpillAccounts sp) (hkept : NoneKept sp)
    (hes : ∀ index ∈ indices, (sp.partitionBuffers index).entries ≠ [])
    (hsp : indices.foldlM spillBuffer (sp, loadedMem, w) = .ok res) :
    Spills (indices.map fun index => (sp.partitionBuffers index).memUsed).sum
      (sp, loadedMem) (res.1, res.2.1) := by
  induction indices generalizing sp loadedMem w with
  | nil =>
    cases hsp
    exact ⟨rfl, rfl, haccounts, hkept, id, fun _ _ h _ => h⟩
  | cons index indices ih =>
    rw [List.nodup_cons] at hnodup
    obtain ⟨middle, ha, hsp⟩ := bind_eq_ok.1 hsp
    obtain ⟨hspills, hothers⟩ := spills_spillBuffer haccounts hkept
      (hes index (List.mem_cons_self)) ha
    have hsame : ∀ other ∈ indices, middle.1.partitionBuffers other = sp.partitionBuffers other :=
      fun other hother => hothers other fun heq => hnodup.1 (heq ▸ hother)
    have hrest := @ih middle.1 hnodup.2 middle.2.1 middle.2.2 hspills.accounts hspills.noneKept
      (fun other hother => by
        rw [hsame other hother]
        exact hes other (List.mem_cons_of_mem _ hother)) hsp
    rw [List.map_congr_left fun other hother => by rw [hsame other hother]] at hrest
    exact hspills.trans hrest

/-- The write of serialized buffers changes no memory. -/
theorem sameMemory_submitWrite :
    ∃ spill', (submitWrite env s sp data).1 =
        { s with spillState := some spill', ioCount := s.ioCount + 1 } ∧
      SameMemory sp spill' := by
  unfold submitWrite
  split_ifs
  · refine ⟨_, rfl, ?_⟩
    obtain ⟨hpartitioning, hbuffers, hpartitions⟩ := sameMemory_completeWrite
      { sp with
        nextSpillOffset := sp.nextSpillOffset + data.length
        inFlight := some (sp.nextSpillOffset, data) }
    exact ⟨hpartitioning, hbuffers, hpartitions⟩
  · exact ⟨_, rfl, rfl, rfl, fun _ => rfl⟩

variable {spill : SpillState}

theorem Sound.noneKept (hsound : Sound s)
    (hspill : s.spillState = some spill) (hinsertable : s.phase.insertable = true) :
    NoneKept spill := by
  intro i p hp
  exact hsound.accounts.building hinsertable i p ((State.partition_of_spill hspill i).trans hp)

/-- The state after buffers were serialized and their write was submitted. -/
theorem Spills.keeps {after : SpillState} {freed loadedMem : ℕ}
    (hspills : Spills freed (spill, s.loadedPartitionsMem) (after, loadedMem))
    (hsound : Sound s) (hspill : s.spillState = some spill)
    (hinsertable : s.phase.insertable = true) :
    Keeps True s (submitWrite env { s with
      memUsed := s.memUsed - freed, loadedPartitionsMem := loadedMem } after data).1 := by
  obtain ⟨spill', hsubmitted, hsame⟩ := @sameMemory_submitWrite env { s with
      memUsed := s.memUsed - freed, loadedPartitionsMem := loadedMem } after data
  rw [hsubmitted]
  obtain ⟨hbuffered, hinMemory, hld⟩ := hsame.sizes
  have hkept := hspills.noneKept.inMemorySize_eq
  have hmemUsed := hsound.accounts.memUsed_eq hspill
  have hb := (hsound.noneKept hspill hinsertable).inMemorySize_eq
  have hfreed : after.bufferedSize + freed = spill.bufferedSize := hspills.buffered
  refine ⟨⟨accounts_of_spill rfl (hsound.accounts.spill spill hspill).2 ?_
    (hsame.accounts hspills.accounts) ?_, ?_⟩, ?_, rfl⟩
  · change s.memUsed - freed = _
    dsimp only at hkept
    omega
  · intro _ i p hp
    obtain ⟨x, hx, hmemory⟩ := hsame.exists_partition hp
    exact state_of_memory hmemory ▸ hspills.noneKept i x hx
  · intro i p hp hs hexcept
    obtain ⟨x, hx, hmemory⟩ := hsame.exists_partition hp
    have hs' := (state_of_memory hmemory).trans hs
    exact hsound.listed i x ((State.partition_of_spill hspill i).trans (hspills.loaded i x hx hs'))
      hs' hexcept
  · intro _ hexact
    have hexact' : s.loadedPartitionsMem = spill.loadedSize := by
      rw [Exact, State.loadedSize, hspill] at hexact
      exact hexact
    exact (hspills.exact hexact').trans hld

variable {finished : Option Bool}

theorem keeps_spillMultiplePartitions {indices : List ℕ} {next : State}
    (hsound : Sound s) (hsp : s.spillState = some sp)
    (hinsertable : s.phase.insertable = true) (hnodup : indices.Nodup)
    (hnx : spillMultiplePartitions env s sp indices = .ok (next, finished)) :
    Keeps True s next := by
  unfold spillMultiplePartitions at hnx
  by_cases hno : (indices.filter fun i => (sp.partitionBuffers i).entries ≠ []) = []
  · rw [if_pos hno] at hnx
    cases hnx
    exact Keeps.refl hsound
  rw [if_neg hno] at hnx
  obtain ⟨⟨after, loadedMem, data⟩, hfold, hnx⟩ := bind_eq_ok.1 hnx
  have hspills := spills_foldlM (hnodup.filter _) (hsound.accounts.spill sp hsp).1
    (hsound.noneKept hsp hinsertable) (by simp) hfold
  split_ifs at hnx
  cases hnx
  exact hspills.keeps hsound hsp hinsertable

theorem partitionsToSpill_sublist {entrySize projected : ℕ} {candidates : List (ℕ × ℕ)} :
    (partitionsToSpill cfg entrySize projected candidates).Sublist (candidates.map Prod.fst) := by
  induction candidates generalizing projected with
  | nil => exact List.Sublist.slnil
  | cons candidate candidates ih =>
    rw [partitionsToSpill]
    split_ifs
    · exact List.nil_sublist _
    · exact ih.cons_cons _

theorem nodup_spillCandidates (sp : SpillState) : ((spillCandidates sp).map Prod.fst).Nodup := by
  unfold spillCandidates
  rw [((List.perm_insertionSort _ _).map Prod.fst).nodup_iff, List.map_map]
  simpa [comp_def] using List.nodup_range.filter _

theorem keeps_spillPartitionsForEntry {entrySize : ℕ} {next : State}
    (hsound : Sound s) (hsp : s.spillState = some sp)
    (hinsertable : s.phase.insertable = true)
    (hnx : spillPartitionsForEntry cfg env s sp entrySize = .ok (next, finished)) :
    Keeps True s next := by
  unfold spillPartitionsForEntry at hnx
  split_ifs at hnx
  · cases hnx
    exact Keeps.refl hsound
  · exact keeps_spillMultiplePartitions hsound hsp hinsertable
      (partitionsToSpill_sublist.nodup (nodup_spillCandidates sp)) hnx

/-! ## Inserting -/

theorem SpillAccounts.bufferEntry {i : ℕ} (haccounts : SpillAccounts sp)
    (hi : i < sp.partitioning.count) (e : HashEntry) (places : ℕ → Places) :
    SpillAccounts { sp with
        partitionBuffers := update sp.partitionBuffers i ((sp.partitionBuffers i).insert e)
        distinctKeyPlaces := places } ∧
      SpillState.bufferedSize { sp with
        partitionBuffers := update sp.partitionBuffers i ((sp.partitionBuffers i).insert e)
        distinctKeyPlaces := places } = sp.bufferedSize + e.sizeBytes := by
  have hinsert : bucketSize ((sp.partitionBuffers i).insert e).entries =
      bucketSize (sp.partitionBuffers i).entries + e.sizeBytes := by
    simp [PartitionBuffer.insert, bucketSize]
  have hinserted := @SpillAccounts.setBuffer _ _ haccounts hi
    ((sp.partitionBuffers i).insert e) (by rw [hinsert, ← haccounts.bufferMem i]; rfl)
  refine ⟨{ hinserted with }, ?_⟩
  · have hbuffers := sum_update sp.partitionBuffers (fun buffer => bucketSize buffer.entries)
      hi ((sp.partitionBuffers i).insert e)
    unfold SpillState.bufferedSize
    dsimp only
    omega

theorem keeps_bufferEntry (hsound : Sound state)
    (hsp : state.spillState = some sp) {index : ℕ} (hindex : index < sp.partitioning.count)
    (entry : HashEntry) (places : ℕ → Places) (entryCount : ℕ) :
    Keeps True state { state with
      spillState := some { sp with
        partitionBuffers := update sp.partitionBuffers index
          ((sp.partitionBuffers index).insert entry)
        distinctKeyPlaces := places }
      numEntries := entryCount
      memUsed := state.memUsed + entry.sizeBytes } := by
  obtain ⟨haccounts, hbuckets⟩ := hsound.accounts.spill sp hsp
  obtain ⟨hinserted, hbuffered⟩ := haccounts.bufferEntry hindex entry places
  have hpartitions := State.partition_of_spill hsp
  refine ⟨⟨accounts_of_spill rfl hbuckets ?_ hinserted ?_, ?_⟩, ?_, rfl⟩
  · rw [hbuffered]
    have hmemUsed := hsound.accounts.memUsed_eq hsp
    change state.memUsed + entry.sizeBytes = sp.bufferedSize + entry.sizeBytes + sp.inMemorySize
    omega
  · intro hinsertable other p hp
    exact hsound.accounts.building hinsertable other p ((hpartitions other).trans hp)
  · intro other p hp
    exact hsound.listed other p ((hpartitions other).trans hp)
  · intro _ hexact
    rw [Exact, State.loadedSize, hsp] at hexact
    exact hexact

theorem partitionBucketMem_insertBucket {buckets : Buckets} (hbuckets : buckets ≠ [])
    (e : HashEntry) :
    partitionBucketMem (insertBucket buckets e) = partitionBucketMem buckets + e.sizeBytes := by
  have hsum := ((flatten_insertBucket hbuckets e).map HashEntry.sizeBytes).sum_eq
  rw [partitionBucketMem_eq, partitionBucketMem_eq]
  exact hsum.trans (Nat.add_comm _ _)

theorem keeps_bucketEntry (hsound : Sound s) (hsp : s.spillState = none)
    (hopen : s.phase ≠ .closed) (e : HashEntry) :
    Keeps True s (bucketEntry s e) := by
  obtain ⟨hloadedMem, hcovered, -, hbuckets⟩ := hsound.accounts.unspilled hsp
  have hp : ∀ i, (bucketEntry s e).partition i = none := by
    intro i
    change s.spillState.bind _ = none
    rw [hsp]
    rfl
  have hmemUsed := hsound.accounts.memUsed
  rw [State.heldSize, hsp] at hmemUsed
  refine ⟨⟨⟨?_, ?_, fun _ => ⟨hloadedMem, ?_, by rintro ⟨⟩, ?_⟩, ?_⟩, ?_⟩, ?_, rfl⟩
  · change s.memUsed + e.sizeBytes = partitionBucketMem (insertBucket s.buckets e) +
      (s.spillState.map _).getD 0
    rw [hsp, partitionBucketMem_insertBucket (hbuckets hopen), hmemUsed]
    rfl
  · intro sp hsp'
    change s.spillState = some sp at hsp'
    rw [hsp] at hsp'
    cases hsp'
  · intro i hi
    change i ∈ if _ then _ else _
    by_cases hself : bucketIndex s.buckets.length e.hash = i
    · rw [hself]
      split_ifs with hempty
      · simp
      · exact hcovered i hempty
    · have hsame : (insertBucket s.buckets e).getD i [] = s.buckets.getD i [] := by
        simp [insertBucket, List.getD_eq_getElem?_getD, hself]
      have hm := hcovered i (hsame ▸ hi)
      split_ifs
      · exact List.mem_append_left _ hm
      · exact hm
  · intro _
    rw [← List.length_pos_iff_ne_nil]
    change 0 < (insertBucket s.buckets e).length
    rw [length_insertBucket]
    exact List.length_pos_of_ne_nil (hbuckets hopen)
  · intro _ i p hsome
    rw [hp] at hsome
    cases hsome
  · intro i p hsome
    rw [hp] at hsome
    cases hsome
  · intro _ hexact
    exact hexact

/-- The entries of a table go to the buffers of their partitions. -/
theorem redistributeToPartitions_spec (haccounts : SpillAccounts sp)
    (buckets : Buckets) :
    SpillAccounts (redistributeToPartitions sp buckets) ∧
      (redistributeToPartitions sp buckets).partitions = sp.partitions ∧
      (redistributeToPartitions sp buckets).bufferedSize =
        sp.bufferedSize + partitionBucketMem buckets := by
  rw [partitionBucketMem_eq, redistributeToPartitions]
  induction buckets.flatten generalizing sp with
  | nil => exact ⟨haccounts, rfl, rfl⟩
  | cons e es ih =>
    obtain ⟨hinserted, hbuffered⟩ := haccounts.bufferEntry
      (sp.partitioning.index_lt e.hash) e sp.distinctKeyPlaces
    obtain ⟨hrest, hpartitions, hsize⟩ := ih hinserted
    refine ⟨hrest, hpartitions, ?_⟩
    refine hsize.trans ?_
    rw [hbuffered, bucketSize, bucketSize, List.map_cons, List.sum_cons]
    omega

theorem spillAccounts_new (partitioning : Partitioning) : SpillAccounts (.new partitioning) where
  bufferMem _ := rfl
  outside _ _ := ⟨rfl, rfl⟩
  wellFormed := nofun

/-- The table begins to spill. -/
theorem sound_startSpill {partitioning : Partitioning} {places : ℕ → Places} (hsound : Sound s)
    (hspill : s.spillState = none)
    (hstart : spill = { redistributeToPartitions (.new partitioning) s.buckets with
      distinctKeyPlaces := places }) :
    Sound (startSpill s spill) ∧ Exact (startSpill s spill) ∧
      ∀ index, spill.partitions index = none := by
  obtain ⟨haccounts, hpartitions, hbuffered⟩ :=
    redistributeToPartitions_spec (spillAccounts_new partitioning) s.buckets
  have hmemUsed := hsound.accounts.memUsed
  rw [State.heldSize, hspill] at hmemUsed
  have hno : ∀ i, spill.partitions i = none := hstart ▸ congrFun hpartitions
  have hkept : NoneKept spill := by
    intro i p hp
    rw [hno] at hp
    cases hp
  have hld : NoneLoaded (startSpill s spill) := by
    intro i p hp
    rw [show (startSpill s spill).partition i = none from hno i] at hp
    cases hp
  refine ⟨⟨accounts_of_spill rfl rfl ?_ ?_ fun _ => hkept, ?_⟩, ?_, hno⟩
  · have hempty : SpillState.bufferedSize (.new partitioning) = 0 := sum_eq_zero fun _ _ => rfl
    rw [hempty, Nat.zero_add] at hbuffered
    rw [hkept.inMemorySize_eq, hstart]
    exact hmemUsed.trans hbuffered.symm
  · rw [hstart]
    exact { haccounts with }
  · exact fun i p hp hs => absurd hs (hld i p hp)
  · exact (hsound.accounts.unspilled hspill).1.trans hld.loadedSize_eq.symm

end Turso.HashTable
