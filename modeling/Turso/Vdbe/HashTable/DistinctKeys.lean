import Turso.Vdbe.HashTable.Reload

/-!
# The keys of a table for DISTINCT

What `insert_distinct` (`core/vdbe/hash_table.rs`) relies on: the entries of the table are those of the
keys that were inserted, each in its partition (`SpillHolds`), and spilling keeps that.
-/

namespace Turso.HashTable

open SpillState Function List

variable {cfg : Config} {env : Environment} {state : State}
variable {spill' : SpillState}

/-! ## Entries and keys -/

/-- The sizes of a key fit into machine words. -/
def Config.Fits (config : Config) (key : List Value) : Prop :=
  (config.entry key).Fits ∧ (config.entry key).serializedSize < 2 ^ 64

variable (config : Config)

/-- The entries on disk and in buffers are those of the keys. -/
structure SpillHolds (file : Bytes) (keys : List (List Value))
    (contents : ℕ → List (List HashEntry)) (spill : SpillState) : Prop where
  partitions : ∀ index partition, spill.partitions index = some partition →
    PartitionHolds file partition (contents index)
  absent : ∀ index, spill.partitions index = none → contents index = []
  entries : ∀ index entry,
    entry ∈ (contents index).flatten ++ (spill.partitionBuffers index).entries ↔
      ∃ key ∈ keys, config.entry key = entry ∧ spill.partitioning.index (config.hash key) = index
  places : ∀ index, PlacesHold file (spill.distinctKeyPlaces index) (contents index).flatten
    (spill.partitionBuffers index).entries

section

variable {file : Bytes} {keys : List (List Value)} {c : ℕ → List (List HashEntry)}
  {spill : SpillState}

section
variable (hholds : SpillHolds cfg file keys c spill)
include hholds

theorem SpillHolds.append (more : Bytes) :
    SpillHolds cfg (file ++ more) keys c spill where
  partitions index partition hpartition := (hholds.partitions index partition hpartition).append more
  absent := hholds.absent
  entries := hholds.entries
  places index := (hholds.places index).append more

theorem SpillHolds.fits (hfits : ∀ k ∈ keys, cfg.Fits k) {i : ℕ} {e : HashEntry}
    (he : e ∈ (c i).flatten ++ (spill.partitionBuffers i).entries) :
    e.Fits ∧ e.serializedSize < 2 ^ 64 := by
  obtain ⟨k, hk, rfl, -⟩ := (hholds.entries i e).1 he
  exact hfits k hk

theorem SpillHolds.reloads {i : ℕ} {next : SpilledPartition} (hreloads : Reloads i spill spill')
    (hself : spill'.partitions i = some next) (hnx : PartitionHolds file next (c i)) :
    SpillHolds cfg file keys c spill' where
  partitions := by
    intro x p hp
    by_cases hx : x = i
    · subst hx
      rw [hself] at hp
      cases hp
      exact hnx
    rcases hreloads.others x hx with hsame | ⟨before, hbefore, hunloaded⟩
    · exact hholds.partitions x p (hsame ▸ hp)
    · rw [hunloaded] at hp
      cases hp
      exact (hholds.partitions x before hbefore).unload
  absent := by
    intro x hno
    by_cases hx : x = i
    · subst hx
      rw [hself] at hno
      cases hno
    rcases hreloads.others x hx with hsame | ⟨before, hbefore, hunloaded⟩
    · exact hholds.absent x (hsame ▸ hno)
    · rw [hunloaded] at hno
      cases hno
  entries := by
    rw [hreloads.rest]
    exact hholds.entries
  places := by
    rw [hreloads.rest]
    exact hholds.places

end

/-! ## Spilling -/

/-- The partition that a chunk is added to. -/
theorem PartitionHolds.addChunk {existing : Option SpilledPartition} {c : SpillChunk}
    {es : List HashEntry} {before : List (List HashEntry)}
    (hsome : ∀ p, existing = some p → PartitionHolds file p before ∧ p.WellFormed)
    (hno : existing = none → before = []) (hc : ChunkHolds file c es) :
    PartitionHolds file ((partitionForSpill existing).1.addChunk c) (before ++ [es]) := by
  have happend : ∀ p : SpilledPartition, Forall₂ (ChunkHolds file) p.chunks before →
      Forall₂ (ChunkHolds file) (p.chunks ++ [c]) (before ++ [es]) :=
    fun p hchunks => rel_append hchunks (.cons hc .nil)
  cases existing with
  | none =>
    rw [hno rfl]
    exact ⟨.cons hc .nil, by rintro ⟨⟩, fun _ => ⟨rfl, by rintro ⟨⟩⟩, by rintro ⟨⟩, by rintro ⟨⟩⟩
  | some p =>
    obtain ⟨hholds, hwell⟩ := hsome p rfl
    rw [partitionForSpill]
    split_ifs with hld
    · exact ⟨happend p hholds.chunks, by rintro ⟨⟩, fun _ => ⟨rfl, by rintro ⟨⟩⟩, by rintro ⟨⟩,
        by rintro ⟨⟩⟩
    · refine ⟨happend p hholds.chunks, hholds.spilled, fun hs => ?_, fun hs => ?_,
        fun hs => absurd hs hld⟩
      · exact ⟨(hholds.onDisk hs).1, by rintro ⟨⟩⟩
      · obtain ⟨n, hn, hbuckets, hleft, hparsed, -⟩ := hholds.loading hs
        have hi := hwell.onDisk (.inr hs)
        have htake : (before ++ [es]).take p.currentChunkIdx = before.take p.currentChunkIdx := by
          rw [take_append_of_le_length]
          rw [← hholds.chunks.length_eq]
          exact hi.le
        refine ⟨n, hn, ?_, hleft, ?_, by rintro ⟨⟩⟩
        · exact hbuckets.trans (by rw [← htake]; rfl)
        · exact hparsed.trans (by rw [← htake]; rfl)

/-- No read of a chunk is under way. -/
def Ready (spill : SpillState) : Prop :=
  ∀ index partition, spill.partitions index = some partition → partition.ioState ≠ .waitingForRead

/-- Buffers are serialized: what stays as it was. -/
structure Serializes (indices : List ℕ) (spill spill' : SpillState) : Prop where
  nextSpillOffset : spill'.nextSpillOffset = spill.nextSpillOffset
  file : spill'.file = spill.file
  inFlight : spill'.inFlight = spill.inFlight
  partitioning : spill'.partitioning = spill.partitioning
  distinctKeyRead : spill'.distinctKeyRead = spill.distinctKeyRead
  buffers : ∀ index, spill'.partitionBuffers index =
    if index ∈ indices then .empty else spill.partitionBuffers index
  places : ∀ index hash, (spill'.distinctKeyPlaces index hash).isSome =
    (spill.distinctKeyPlaces index hash).isSome
  ready : Ready spill → Ready spill'

theorem Serializes.trans {a b : List ℕ} {spill'' : SpillState}
    (ha : Serializes a spill spill') (hb : Serializes b spill' spill'') :
    Serializes (a ++ b) spill spill'' where
  nextSpillOffset := hb.nextSpillOffset.trans ha.nextSpillOffset
  file := hb.file.trans ha.file
  inFlight := hb.inFlight.trans ha.inFlight
  partitioning := hb.partitioning.trans ha.partitioning
  distinctKeyRead := hb.distinctKeyRead.trans ha.distinctKeyRead
  buffers := by
    intro i
    rw [hb.buffers, ha.buffers]
    by_cases h : i ∈ a <;> by_cases h' : i ∈ b <;> simp [h, h']
  places i hash := (hb.places i hash).trans (ha.places i hash)
  ready := hb.ready ∘ ha.ready

/-- One partition of `spill_multiple_partitions`. -/
theorem spillBuffer_spec {w : Bytes} {loadedMem i : ℕ}
    (hholds : SpillHolds cfg (file ++ w) keys c spill)
    (hoffset : spill.nextSpillOffset = file.length) (haccounts : SpillAccounts spill)
    (hfits : ∀ k ∈ keys, cfg.Fits k) :
    ∃ spill' loadedMem' data c',
      spillBuffer (spill, loadedMem, w) i = .ok (spill', loadedMem', w ++ data) ∧
      SpillHolds cfg (file ++ (w ++ data)) keys c' spill' ∧
      Serializes [i] spill spill' := by
  set entries := (spill.partitionBuffers i).entries with hentries
  have hmore := hholds.append (encodeEntries entries)
  have hat : HoldsAt (file ++ w ++ encodeEntries entries)
      (spill.nextSpillOffset + w.length) (encodeEntries entries) := by
    rw [HoldsAt, hoffset, ← length_append, drop_left]
  obtain ⟨places, hserialize, hplaces, hsome⟩ := serializeBuffer_spec (hmore.places i) hat
    fun e he => (hholds.fits hfits (mem_append_right _ he)).1
  have hc : ChunkHolds (file ++ w ++ encodeEntries entries)
      ⟨spill.nextSpillOffset + w.length, (encodeEntries entries).length, entries.length⟩
      entries := ⟨rfl, rfl, hat⟩
  have hq := PartitionHolds.addChunk
    (fun p hp => ⟨hmore.partitions i p hp, haccounts.wellFormed i p hp⟩)
    (hmore.absent i) hc
  refine ⟨_, _, encodeEntries entries, update c i (c i ++ [entries]),
    by rw [spillBuffer]; dsimp only; rw [hserialize]; rfl, ?_, ?_⟩
  · rw [← append_assoc]
    refine ⟨fun x p hp => ?_, fun x hno => ?_, fun x e => ?_, fun x => ?_⟩
    · obtain ⟨rfl, rfl⟩ | ⟨hx, ho⟩ := PartialMap.update_eq_some hp
      · rw [update_self]
        exact hq
      · rw [update_of_ne hx]
        exact hmore.partitions x p ho
    · obtain ⟨hx, ho⟩ := PartialMap.update_eq_none.1 hno
      rw [update_of_ne hx]
      exact hmore.absent x ho
    · refine Iff.trans ?_ (hholds.entries x e)
      dsimp only
      by_cases hx : x = i
      · rw [hx, update_self, update_self]
        simp [PartitionBuffer.empty, ← hentries]
      · rw [update_of_ne hx, update_of_ne hx]
    · dsimp only
      by_cases hx : x = i
      · rw [hx, update_self, update_self, update_self, flatten_append, flatten_singleton]
        exact hplaces
      · rw [update_of_ne hx, update_of_ne hx, update_of_ne hx]
        exact hmore.places x
  · refine ⟨rfl, rfl, rfl, rfl, rfl, fun x => ?_, fun x hash => ?_, fun hready x p hp => ?_⟩
    · dsimp only
      by_cases hx : x = i
      · rw [hx, update_self, if_pos (mem_singleton_self _)]
      · rw [update_of_ne hx, if_neg (by simpa using hx)]
    · dsimp only
      by_cases hx : x = i
      · rw [hx, update_self, hsome]
      · rw [update_of_ne hx]
    · obtain ⟨-, rfl⟩ | ⟨-, ho⟩ := PartialMap.update_eq_some hp
      · rintro ⟨⟩
      · exact hready x p ho

variable {indices : List ℕ}

/-- The loop of `spill_multiple_partitions`. -/
theorem foldlM_spillBuffer_spec (hnodup : indices.Nodup) {w : Bytes}
    {loadedMem : ℕ} (hholds : SpillHolds cfg (file ++ w) keys c spill)
    (hoffset : spill.nextSpillOffset = file.length) (haccounts : SpillAccounts spill)
    (hkept : NoneKept spill)
    (hes : ∀ i ∈ indices, (spill.partitionBuffers i).entries ≠ [])
    (hfits : ∀ k ∈ keys, cfg.Fits k) :
    ∃ spill' loadedMem' data c',
      indices.foldlM spillBuffer (spill, loadedMem, w) = .ok (spill', loadedMem', data) ∧
      SpillHolds cfg (file ++ data) keys c' spill' ∧ Serializes indices spill spill' := by
  induction indices generalizing spill loadedMem w c with
  | nil =>
    exact ⟨spill, loadedMem, w, c, rfl, hholds, rfl, rfl, rfl, rfl, rfl,
      fun _ => by simp, fun _ _ => rfl, id⟩
  | cons i indices ih =>
    rw [nodup_cons] at hnodup
    obtain ⟨middle, loadedMem', data, c', ha, hholds', hserializes⟩ :=
      @spillBuffer_spec cfg file keys c spill w loadedMem i hholds hoffset haccounts hfits
    obtain ⟨hspills, hothers⟩ := spills_spillBuffer haccounts hkept (hes i mem_cons_self) ha
    have hes' : ∀ x ∈ indices, (middle.partitionBuffers x).entries ≠ [] := by
      intro x hx
      rw [hothers x fun heq => hnodup.1 (heq ▸ hx)]
      exact hes x (mem_cons_of_mem _ hx)
    obtain ⟨spill', loadedMem'', data', contents'', hrest, hholds'', hserializes'⟩ :=
      @ih c' middle hnodup.2 (w ++ data) loadedMem' hholds'
        (hserializes.nextSpillOffset.trans hoffset) hspills.accounts hspills.noneKept hes'
    refine ⟨spill', loadedMem'', data', contents'', ?_, hholds'', hserializes.trans hserializes'⟩
    rw [foldlM_cons, ha]
    exact hrest

/-! ## States between two calls -/

/-- A spilled table between two calls: all IO has ended; there may be a key that was read for the call
that is made again. -/
structure Settled (keys : List (List Value)) (reading : Option (ℕ × ℕ)) (spill : SpillState) :
    Prop where
  holds : ∃ contents, SpillHolds config spill.file keys contents spill
  offset : spill.nextSpillOffset = spill.file.length
  inFlight : spill.inFlight = none
  ready : Ready spill
  read : spill.distinctKeyRead = reading.map fun place =>
    ⟨place.1, place.2, .readComplete, pread spill.file place.1 place.2⟩

theorem SpillState.complete_completeWrite (sp : SpillState) :
    sp.completeWrite.complete = sp.complete := by
  have hno : sp.completeWrite.inFlight = none := by
    unfold completeWrite
    cases hinFlight : sp.inFlight with
    | none => exact hinFlight
    | some request => rfl
  have hself : sp.completeWrite.completeWrite = sp.completeWrite := by
    conv_lhs => rw [completeWrite, hno]
  rw [complete, hself]
  rfl

variable {reading : Option (ℕ × ℕ)}

theorem Settled.complete_withRead (hsettled : Settled cfg keys reading spill)
    (read : Option DistinctKeyRead) :
    complete { spill with distinctKeyRead := read } =
      { spill with distinctKeyRead := read.map (·.complete spill.file) } := by
  have hself : completeWrite { spill with distinctKeyRead := read } =
      { spill with distinctKeyRead := read } := by
    rw [completeWrite]
    rw [hsettled.inFlight]
  have hpartitions : (fun index => (spill.partitions index).map (·.completeRead spill.file)) =
      spill.partitions := by
    funext index
    cases hp : spill.partitions index with
    | none => rfl
    | some p =>
      rw [Option.map_some, SpilledPartition.completeRead, if_neg (hsettled.ready index p hp)]
  rw [complete, hself]
  rw [hpartitions]

theorem Settled.complete_eq (hsettled : Settled cfg keys reading spill) :
    spill.complete = spill := by
  have hread : spill.distinctKeyRead.map (·.complete spill.file) = spill.distinctKeyRead := by
    rw [hsettled.read]
    cases reading <;> rfl
  have hcomplete := hsettled.complete_withRead spill.distinctKeyRead
  rw [hread] at hcomplete
  exact hcomplete

theorem PartitionHolds.completeWrite {p : SpilledPartition}
    {chunks : List (List HashEntry)} (hholds : PartitionHolds file p chunks) :
    PartitionHolds file p.completeWrite chunks := by
  unfold SpilledPartition.completeWrite
  split_ifs
  · refine ⟨hholds.chunks, hholds.spilled, fun hs => ⟨(hholds.onDisk hs).1, nofun⟩,
      fun hs => ?_, hholds.loaded⟩
    obtain ⟨n, hn, hbuckets, hleft, hparsed, -⟩ := hholds.loading hs
    exact ⟨n, hn, hbuckets, hleft, hparsed, nofun⟩
  · exact hholds

/-- The write of serialized buffers ends. -/
theorem Settled.completeWrite {data : Bytes}
    (hsettled : Settled cfg keys none spill) (hserializes : Serializes indices spill spill')
    (hholds : SpillHolds cfg (spill.file ++ data) keys c spill') :
    Settled cfg keys none (completeWrite { spill' with
      nextSpillOffset := spill'.nextSpillOffset + data.length
      inFlight := some (spill'.nextSpillOffset, data) }) := by
  have hoffset : spill'.nextSpillOffset = spill.file.length :=
    hserializes.nextSpillOffset.trans hsettled.offset
  have hfile : pwrite spill'.file spill'.nextSpillOffset data = spill.file ++ data := by
    simp [hserializes.file, hoffset, pwrite]
  rw [SpillState.completeWrite]
  dsimp only
  rw [hfile]
  refine ⟨⟨c, fun i p hp => ?_, fun i hnone => ?_, hholds.entries, hholds.places⟩,
    ?_, rfl, fun i p hp => ?_, ?_⟩
  · obtain ⟨before, hbefore, rfl⟩ := Option.map_eq_some_iff.1 hp
    exact (hholds.partitions i before hbefore).completeWrite
  · exact hholds.absent i (Option.map_eq_none_iff.1 hnone)
  · rw [hoffset, length_append]
  · obtain ⟨before, hbefore, rfl⟩ := Option.map_eq_some_iff.1 hp
    have hready := hserializes.ready hsettled.ready i before hbefore
    unfold SpilledPartition.completeWrite
    split_ifs
    · nofun
    · exact hready
  · dsimp only
    rw [hserializes.distinctKeyRead, hsettled.read]
    rfl

/-- The state in which the IO of a call has ended. -/
def State.settle (state : State) (finished : Bool) : State :=
  if finished then state else state.complete

/-- What `spill_multiple_partitions` leads to when its write has ended. -/
structure SpillOutcome (keys : List (List Value)) (indices : List ℕ) (state : State)
    (spill : SpillState) (next : State) : Prop where
  memUsed : next.memUsed =
    state.memUsed - (indices.map fun index => (spill.partitionBuffers index).memUsed).sum
  spilled : ∃ spill', next.spillState = some spill' ∧ Settled config keys none spill' ∧
    spill'.partitioning = spill.partitioning ∧
    (∀ index, spill'.partitionBuffers index =
      if index ∈ indices then .empty else spill.partitionBuffers index) ∧
    ∀ index hash, (spill'.distinctKeyPlaces index hash).isSome =
      (spill.distinctKeyPlaces index hash).isSome

/-- `spill_multiple_partitions` with something to spill. -/
theorem spillMultiplePartitions_spec (hsound : Sound state)
    (hspill : state.spillState = some spill) (hinsertable : state.phase.insertable = true)
    (hsettled : Settled cfg keys none spill) (hnodup : indices.Nodup) (hne : indices ≠ [])
    (hes : ∀ i ∈ indices, (spill.partitionBuffers i).entries ≠ [])
    (hfits : ∀ k ∈ keys, cfg.Fits k) :
    ∃ next finished, spillMultiplePartitions env state spill indices = .ok (next, some finished) ∧
      SpillOutcome cfg keys indices state spill (next.settle finished) := by
  obtain ⟨c, hholds⟩ := hsettled.holds
  have haccounts := (hsound.accounts.spill spill hspill).1
  have hkept := hsound.noneKept hspill hinsertable
  have hfilter : (indices.filter fun i => (spill.partitionBuffers i).entries ≠ []) =
      indices := by
    rw [filter_eq_self]
    intro i hi
    simpa using hes i hi
  obtain ⟨spill', loadedMem, data, c', hfold, hholds', hserializes⟩ :=
    @foldlM_spillBuffer_spec cfg spill.file keys c spill indices hnodup []
      state.loadedPartitionsMem (by simpa using hholds) hsettled.offset haccounts hkept hes hfits
  have hspills := spills_foldlM hnodup haccounts hkept hes hfold
  have hmemUsed := hsound.accounts.memUsed_eq hspill
  have hfreed := hspills.buffered
  have hw := hsettled.completeWrite hserializes hholds'
  set freed := (indices.map fun i => (spill.partitionBuffers i).memUsed).sum with hfreed'
  unfold spillMultiplePartitions
  rw [hfilter, if_neg hne, hfold]
  simp only [bind, Except.bind]
  rw [if_neg (by dsimp only at hfreed; omega)]
  refine ⟨_, _, rfl, ?_⟩
  set w : SpillState := { spill' with
    nextSpillOffset := spill'.nextSpillOffset + data.length
    inFlight := some (spill'.nextSpillOffset, data) } with hw'
  have hcompleted : w.complete = w.completeWrite := by
    rw [← complete_completeWrite, hw.complete_eq]
  have houtcome : ∀ next : State, next.memUsed = state.memUsed - freed →
      next.spillState = some w.completeWrite →
      SpillOutcome cfg keys indices state spill next := by
    intro next hnext hspill'
    exact ⟨hnext, w.completeWrite, hspill', hw, hserializes.partitioning,
      hserializes.buffers, hserializes.places⟩
  unfold submitWrite
  by_cases hio : env state.ioCount = true
  · rw [if_pos hio]
    exact houtcome _ rfl rfl
  · rw [if_neg hio]
    refine houtcome _ rfl ?_
    change some w.complete = _
    rw [hcompleted]

/-! ## Room for an entry -/

/-- Nothing has to be spilled for an entry, or there is nothing to spill. -/
def HasRoom (state : State) (spill : SpillState) (entrySize : ℕ) : Prop :=
  state.memUsed + entrySize ≤ config.memBudget ∨
    ∀ index, (spill.partitionBuffers index).entries = []

/-- The partitions that are taken make enough room, or all are taken. -/
theorem partitionsToSpill_spec {entrySize projected : ℕ} {candidates : List (ℕ × ℕ)}
    {size : ℕ → ℕ} (hsizes : ∀ candidate ∈ candidates, candidate.2 = size candidate.1) :
    projected - ((partitionsToSpill cfg entrySize projected candidates).map size).sum + entrySize ≤
        cfg.memBudget ∨
      partitionsToSpill cfg entrySize projected candidates = candidates.map Prod.fst := by
  induction candidates generalizing projected with
  | nil => exact .inr rfl
  | cons candidate candidates ih =>
    obtain ⟨index, memUsed⟩ := candidate
    have hsize : memUsed = size index := hsizes (index, memUsed) mem_cons_self
    rw [partitionsToSpill]
    split_ifs with hfits
    · exact .inl (by simpa using hfits)
    · rcases @ih (projected - memUsed)
        (fun other hother => hsizes other (mem_cons_of_mem _ hother)) with hroom | hall
      · left
        rw [map_cons, sum_cons, ← hsize, ← Nat.sub_sub]
        exact hroom
      · right
        rw [hall, map_cons]

theorem mem_spillCandidates {candidate : ℕ × ℕ} : candidate ∈ spillCandidates spill ↔
    candidate.1 < spill.partitioning.count ∧ (spill.partitionBuffers candidate.1).entries ≠ [] ∧
      candidate.2 = (spill.partitionBuffers candidate.1).memUsed := by
  unfold spillCandidates
  rw [mem_insertionSort]
  simp only [mem_map, mem_filter, mem_range, decide_eq_true_eq]
  constructor
  · rintro ⟨i, ⟨hi, hes⟩, rfl⟩
    exact ⟨hi, hes, rfl⟩
  · rintro ⟨hi, hes, hsize⟩
    exact ⟨candidate.1, ⟨hi, hes⟩, by rw [← hsize]⟩

/-- `spill_partitions_for_entry` makes room for an entry. -/
theorem spillPartitionsForEntry_spec {entrySize : ℕ} (hsound : Sound state)
    (hspill : state.spillState = some spill) (hinsertable : state.phase.insertable = true)
    (hsettled : Settled cfg keys none spill) (hfits : ∀ key ∈ keys, cfg.Fits key) :
    (HasRoom cfg state spill entrySize ∧
        spillPartitionsForEntry cfg env state spill entrySize = .ok (state, none)) ∨
      (¬HasRoom cfg state spill entrySize ∧ ∃ next finished indices,
        spillPartitionsForEntry cfg env state spill entrySize = .ok (next, some finished) ∧
        SpillOutcome cfg keys indices state spill (next.settle finished) ∧
        ∀ spill', (next.settle finished).spillState = some spill' →
          HasRoom cfg (next.settle finished) spill' entrySize) := by
  unfold spillPartitionsForEntry
  by_cases hroom : state.memUsed + entrySize ≤ cfg.memBudget
  · rw [if_pos hroom]
    exact .inl ⟨.inl hroom, rfl⟩
  rw [if_neg hroom]
  have haccounts := (hsound.accounts.spill spill hspill).1
  set indices := partitionsToSpill cfg entrySize state.memUsed (spillCandidates spill) with hindices
  by_cases hempty : ∀ index, (spill.partitionBuffers index).entries = []
  · left
    refine ⟨.inr hempty, ?_⟩
    rw [spillMultiplePartitions]
    rw [if_pos]
    rw [filter_eq_nil_iff]
    intro index _
    simpa using hempty index
  · right
    refine ⟨by rw [HasRoom, not_or]; exact ⟨hroom, hempty⟩, ?_⟩
    have hm : ∀ index ∈ indices, ∃ candidate ∈ spillCandidates spill, candidate.1 = index := by
      intro index hindex
      exact mem_map.1 (partitionsToSpill_sublist.subset hindex)
    have hes : ∀ index ∈ indices, (spill.partitionBuffers index).entries ≠ [] := by
      intro index hindex
      obtain ⟨candidate, hcandidate, rfl⟩ := hm index hindex
      exact (mem_spillCandidates.1 hcandidate).2.1
    have hcandidate : ∀ index, (spill.partitionBuffers index).entries ≠ [] →
        (index, (spill.partitionBuffers index).memUsed) ∈ spillCandidates spill := by
      intro index hne
      exact mem_spillCandidates.2 ⟨haccounts.index_lt_of_buffer hne, hne, rfl⟩
    have hne : indices ≠ [] := by
      obtain ⟨index, hindex⟩ := not_forall.1 hempty
      obtain ⟨a, rest, hcandidates⟩ :=
        exists_cons_of_ne_nil (ne_nil_of_mem (hcandidate index hindex))
      rw [hindices, hcandidates, partitionsToSpill, if_neg hroom]
      exact cons_ne_nil _ _
    obtain ⟨next, finished, hnx, houtcome⟩ := @spillMultiplePartitions_spec cfg env state keys
      spill indices hsound hspill hinsertable hsettled
      (partitionsToSpill_sublist.nodup (nodup_spillCandidates spill)) hne hes hfits
    refine ⟨next, finished, indices, hnx, houtcome, fun spill' hspill' => ?_⟩
    obtain ⟨hmemUsed, after, hafter, -, -, hbuffers, -⟩ := houtcome
    rw [hspill'] at hafter
    cases hafter
    rcases @partitionsToSpill_spec cfg entrySize state.memUsed (spillCandidates spill)
      (fun index => (spill.partitionBuffers index).memUsed)
      (fun candidate h => (mem_spillCandidates.1 h).2.2) with hfits' | hall
    · left
      rw [hmemUsed]
      exact hfits'
    · right
      intro index
      rw [hbuffers]
      split_ifs with hindex
      · rfl
      · by_contra hne'
        rw [hindices, hall] at hindex
        exact hindex (mem_map.2 ⟨_, hcandidate index hne', rfl⟩)

end

end Turso.HashTable
