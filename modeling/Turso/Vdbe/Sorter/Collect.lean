import Turso.Vdbe.Sorter.Merge

/-!
# Collecting records

While records are inserted, each of them is in memory or in a chunk.  `Collecting` says which records
each chunk holds and that they are in order; `flush` and `insert` keep it.
-/

namespace Turso.Sorter

open State Sorter.Record List

variable {config : Config} {env : Environment} {s : State config}
  {runs : List (List (Record config))}
variable {file : ByteBuffer} {c : SortedChunk} {run : List Bytes}

/-- A chunk that was written and of which nothing has been read. -/
structure Written (file : ByteBuffer) (chunk : SortedChunk) (payloads : List Bytes) : Prop where
  holds : Holds file chunk [] payloads
  buffer : chunk.buffer = []
  records : chunk.records = []
  nextState : chunk.nextState = .start
  ioState : chunk.ioState = .waitingForWrite ∨ chunk.ioState = .writeComplete

/-- The record is what its payload decodes to, and its length fits a machine word. -/
def Valid (record : Record config) : Prop :=
  Decodes record ∧ record.payload.length < 2 ^ 64

variable (sorter : State config)

/-- Each record is in memory or in one of the chunks, which are in order. -/
structure Collecting (runs : List (List (Record config))) : Prop where
  heap_eq : sorter.chunkHeap = []
  pending : sorter.pendingCompletion = none
  state : sorter.initChunkHeapState = .start
  length : sorter.chunks.length = runs.length
  chunks : ∀ (index : ℕ) (chunk : SortedChunk) (run : List (Record config)),
    sorter.chunks[index]? = some chunk → runs[index]? = some run →
      Written sorter.file chunk (payloads run)
  sorted : ∀ run ∈ runs, run.Pairwise le
  valid : ∀ run ∈ runs, ∀ record ∈ run, Valid record
  records : ∀ record ∈ sorter.records, Valid record ∧
    record.payload.length ≤ sorter.maxPayloadSizeInBuffer
  offsets : ∀ chunk ∈ sorter.chunks, chunk.startOffset + chunk.chunkSize ≤ sorter.nextChunkOffset

/-- The records that have been inserted. -/
def collected (runs : List (List (Record config))) : Multiset (Record config) :=
  runs.flatten + sorter.records

def Idle : Prop :=
  ∀ index, sorter.chunkInFlight index = false

/-! ## Sorting in memory -/

theorem sortRecords_perm (records : List (Record config)) : (sortRecords records).Perm records :=
  perm_insertionSort _ records

theorem sortRecords_sorted (rs : List (Record config)) : (sortRecords rs).Pairwise le := by
  have htrans : IsTrans (Record config) fun a b => (Record.cmp a b).isLE = true :=
    ⟨fun a b third h h' => (isLE_cmp _ _).2
      (le_trans ((isLE_cmp _ _).1 h) ((isLE_cmp _ _).1 h'))⟩
  have htotal : Std.Total fun a b : Record config =>
      (Record.cmp a b).isLE = true :=
    ⟨fun a b => (le_total a b).imp (isLE_cmp _ _).2 (isLE_cmp _ _).2⟩
  exact (pairwise_insertionSort _ rs).imp (isLE_cmp _ _).1

/-! ## Flushing -/

theorem varintLen_le {v : ℕ} : varintLen v ≤ 9 := by
  unfold varintLen
  split_ifs with hsmall hlarge
  · omega
  · omega
  · have hlog : v.log2 < 56 := (Nat.log2_lt (by omega)).2 (by omega)
    omega

theorem chunkSize_eq {rs : List (Record config)} (hvalid : ∀ r ∈ rs, Valid r) :
    chunkSize rs = (encodeRecords (payloads rs)).length := by
  induction rs with
  | nil => rfl
  | cons r rs ih =>
    have hrest := ih fun x hx => hvalid x (mem_cons_of_mem _ hx)
    have hr := (hvalid r mem_cons_self).2
    unfold chunkSize at hrest ⊢
    change _ = (encodeRecords (r.payload :: payloads rs)).length
    rw [map_cons, sum_cons, hrest, encodeRecords_cons, length_append,
      length_encodeRecord, length_writeVarint hr]

/-- A write behind a chunk does not change it. -/
theorem Written.write (hw : Written file c run) {offset : ℕ}
    (hoffset : c.startOffset + c.chunkSize ≤ offset) (bytes : Bytes) :
    Written (file.write offset bytes) c run := by
  refine { hw with holds := { hw.holds with bytes := ?_ } }
  rw [ByteBuffer.slice_write_disjoint _ (.inl hoffset)]
  exact hw.holds.bytes

/-- The chunk that `flush` writes. -/
def flushedChunk (env : Environment) (sorter : State config) : SortedChunk :=
  (SortedChunk.write (SortedChunk.new sorter.nextChunkOffset
    (max config.minChunkReadBufferSize (sorter.maxPayloadSizeInBuffer + 9))) env
    sorter.chunks.length (sortRecords sorter.records)
    (chunkSize (sortRecords sorter.records))).1

theorem flush_eq (s : State config) (hne : s.records ≠ []) :
    s.flush env = ({ s with
      records := []
      chunks := s.chunks ++ [flushedChunk env s]
      file := s.file.write s.nextChunkOffset (encodeRecords (payloads (sortRecords s.records)))
      currentBufferSize := 0
      maxPayloadSizeInBuffer := 0
      nextChunkOffset := s.nextChunkOffset + chunkSize (sortRecords s.records) },
      some s.chunks.length) := by
  rw [flush, if_neg hne]
  rfl

theorem flushedChunk_written (hcollecting : Collecting s runs) :
    Written (s.file.write s.nextChunkOffset
      (encodeRecords (payloads (sortRecords s.records)))) (flushedChunk env s)
      (payloads (sortRecords s.records)) := by
  have hrs : ∀ r ∈ sortRecords s.records, Valid r ∧
      r.payload.length ≤ s.maxPayloadSizeInBuffer := fun r hr =>
    hcollecting.records r ((sortRecords_perm _).subset hr)
  refine ⟨⟨?_, rfl, ⟨_, rfl⟩, fun payload hpayload => ?_⟩, rfl, rfl, rfl, ?_⟩
  · change ByteBuffer.slice _ s.nextChunkOffset (chunkSize (sortRecords s.records)) = _
    rw [chunkSize_eq fun r hr => (hrs r hr).1, ByteBuffer.slice_write_self]
    rfl
  · obtain ⟨r, hr, rfl⟩ := mem_map.1 hpayload
    obtain ⟨⟨-, hlen⟩, hmax⟩ := hrs r hr
    refine ⟨hlen, ?_⟩
    have hvarint := @varintLen_le r.payload.length
    rw [length_encodeRecord, length_writeVarint hlen]
    change _ ≤ max config.minChunkReadBufferSize (s.maxPayloadSizeInBuffer + 9)
    omega
  · change (if env.writeAtOnce _ then ChunkIOState.writeComplete else .waitingForWrite) = _ ∨
      (if env.writeAtOnce _ then ChunkIOState.writeComplete else .waitingForWrite) = _
    split_ifs
    · exact .inr rfl
    · exact .inl rfl

theorem getElem?_concat_cases {α : Type} {list : List α} {i : ℕ} {last v : α}
    (h : (list ++ [last])[i]? = some v) :
    list[i]? = some v ∨ (i = list.length ∧ v = last) := by
  rw [getElem?_append] at h
  split_ifs at h with hlt
  · exact .inl h
  · obtain ⟨hi, hv⟩ := List.getElem?_eq_some_iff.1 h
    rw [length_singleton] at hi
    exact .inr ⟨by omega, by rw [← hv]; simp⟩

/-- `flush` moves the records in memory to a new chunk. -/
theorem Collecting.flush (hcollecting : Collecting s runs) (hne : s.records ≠ []) :
    Collecting (s.flush env).1 (runs ++ [sortRecords s.records]) := by
  have hw := @flushedChunk_written config env s runs hcollecting
  have hvalid : ∀ record ∈ sortRecords s.records, Valid record := fun record hrecord =>
    (hcollecting.records record ((sortRecords_perm _).subset hrecord)).1
  rw [flush_eq s hne]
  refine ⟨hcollecting.heap_eq, hcollecting.pending, hcollecting.state, ?_, ?_, ?_, ?_, ?_, ?_⟩
  · dsimp only
    rw [length_append, length_append, hcollecting.length]
    rfl
  · intro index chunk run hchunk hrun
    rcases getElem?_concat_cases hchunk with ho | ⟨rfl, rfl⟩
    · rcases getElem?_concat_cases hrun with ho' | ⟨rfl, -⟩
      · exact (hcollecting.chunks index chunk run ho ho').write
          (hcollecting.offsets chunk (mem_of_getElem? ho)) _
      · rw [← hcollecting.length, getElem?_length] at ho
        cases ho
    · rcases getElem?_concat_cases hrun with ho' | ⟨-, rfl⟩
      · rw [hcollecting.length, getElem?_length] at ho'
        cases ho'
      · exact hw
  · exact forall_mem_append.2 ⟨hcollecting.sorted, forall_mem_singleton.2 (sortRecords_sorted _)⟩
  · exact forall_mem_append.2 ⟨hcollecting.valid, forall_mem_singleton.2 hvalid⟩
  · nofun
  · exact forall_mem_append.2 ⟨fun chunk ho => (hcollecting.offsets chunk ho).trans
      (Nat.le_add_right _ _), forall_mem_singleton.2 le_rfl⟩

theorem collected_flush (runs : List (List (Record config))) (hne : s.records ≠ []) :
    collected (s.flush env).1 (runs ++ [sortRecords s.records]) = collected s runs := by
  rw [flush_eq s hne]
  unfold collected
  rw [flatten_append, flatten_singleton, ← Multiset.coe_add,
    Multiset.coe_eq_coe.2 (sortRecords_perm s.records)]
  exact Multiset.add_zero _

/-! ## Inserting -/

/-- What a call of `insert` can do: the record is added, or the write of a chunk is in flight. -/
inductive Inserted (sorter : State config) (runs : List (List (Record config)))
    (record : Record config) : State config → IOResult Unit → Prop
  | done (next : State config) (runs' : List (List (Record config)))
      (hcollecting : Collecting next runs')
      (hcollected : collected next runs' = record ::ₘ collected sorter runs)
      (horder : next.chunks = [] → sorter.chunks = [] ∧ next.records = sorter.records ++ [record])
      (hidle : Idle next) (hsort : next.sortState = sorter.sortState) :
      Inserted sorter runs record next (.done ())
  | io (next : State config) (runs' : List (List (Record config)))
      (hcollecting : Collecting next runs')
      (hcollected : collected next runs' = collected sorter runs)
      (hchunks : next.chunks ≠ []) (hstart : sorter.insertState = .start)
      (hinsert : next.insertState = .insert) (hsort : next.sortState = sorter.sortState) :
      Inserted sorter runs record next .io

section Insert

variable {r : Record config}

/-- The state of a call does not matter for the records. -/
theorem Collecting.started (hcollecting : Collecting s runs) :
    Collecting { s with insertState := .insert } runs :=
  { hcollecting with }

theorem Collecting.insertRecord (hcollecting : Collecting s runs) (hvalid : Valid r)
    (hidle : Idle s) :
    ∃ next, (s.insertRecord r.payload).map (fun inserted => (inserted, IOResult.done ())) =
        .ok (next, .done ()) ∧ Inserted s runs r next (.done ()) := by
  have hinsert : s.insertRecord r.payload = .ok { s with
      records := s.records ++ [r]
      currentBufferSize := s.currentBufferSize + r.payload.length
      maxPayloadSizeInBuffer := max s.maxPayloadSizeInBuffer r.payload.length
      insertState := .start } := by
    rw [State.insertRecord, hvalid.1]
    rfl
  rw [hinsert]
  refine ⟨_, rfl, .done _ runs { hcollecting with records := ?_ } ?_ (fun h => ⟨h, rfl⟩) hidle rfl⟩
  · refine forall_mem_append.2 ⟨fun x ho => ?_, forall_mem_singleton.2 ⟨hvalid, le_max_right _ _⟩⟩
    obtain ⟨hvalid', hmax⟩ := hcollecting.records x ho
    exact ⟨hvalid', hmax.trans (le_max_left _ _)⟩
  · unfold collected
    rw [← Multiset.coe_add, Multiset.coe_singleton, ← add_assoc]
    exact (add_comm _ {r}).trans (Multiset.singleton_add r _)

/-- A record that follows on others with the same collected records. -/
theorem Inserted.trans {middle next : State config} {runs' : List (List (Record config))}
    (hinserted : Inserted middle runs' r next (.done ()))
    (hcollected : collected middle runs' = collected s runs)
    (horder : middle.chunks = [] → s.chunks = [] ∧ middle.records = s.records)
    (hsort : middle.sortState = s.sortState) :
    Inserted s runs r next (.done ()) := by
  cases hinserted with
  | done runs'' hcollecting hcollected' horder' hidle hsort' =>
    refine .done _ runs'' hcollecting (by rw [hcollected', hcollected]) (fun h => ?_) hidle
      (hsort'.trans hsort)
    obtain ⟨hmiddle, hrs⟩ := horder' h
    obtain ⟨hs, hrs'⟩ := horder hmiddle
    exact ⟨hs, by rw [hrs, hrs']⟩

/-- A chunk that has been written leaves nothing in flight. -/
theorem Idle.flush (hidle : Idle s) (hne : s.records ≠ [])
    (hflight : (s.flush env).1.chunkInFlight s.chunks.length = false) :
    Idle (s.flush env).1 := by
  intro i
  rw [flush_eq s hne] at hflight ⊢
  unfold chunkInFlight at hflight ⊢
  rcases lt_trichotomy i s.chunks.length with hlt | rfl | hgt
  · rw [getElem?_append_left hlt]
    exact hidle i
  · exact hflight
  · rw [getElem?_eq_none (by rw [length_append, length_singleton]; omega)]
    rfl

/-- `insert` adds the record, or yields once. -/
theorem Collecting.insert (hcollecting : Collecting s runs) (hvalid : Valid r) (hidle : Idle s) :
    ∃ next result, s.insert env r.payload = .ok (next, result) ∧ Inserted s runs r next result := by
  let started : State config := { s with insertState := .insert }
  have hstarted : Collecting started runs := hcollecting.started
  have hidleStarted : Idle started := hidle
  have hdirect : ∃ next, (started.insertRecord r.payload).map
      (fun inserted => (inserted, IOResult.done ())) = .ok (next, .done ()) ∧
        Inserted s runs r next (.done ()) := by
    obtain ⟨next, hnx, hinserted⟩ := hstarted.insertRecord hvalid hidle
    exact ⟨next, hnx, hinserted.trans rfl (fun h => ⟨h, rfl⟩) rfl⟩
  cases hs : s.insertState with
  | insert =>
    obtain ⟨next, hnx, hinserted⟩ := hcollecting.insertRecord hvalid hidle
    refine ⟨next, _, ?_, hinserted⟩
    rw [State.insert, hs]
    exact hnx
  | start =>
    have hinsert : s.insert env r.payload =
        if s.currentBufferSize + r.payload.length > config.maxBufferSize then
          if (started.flush env).2.any (started.flush env).1.chunkInFlight then
            .ok ((started.flush env).1, .io)
          else ((started.flush env).1.insertRecord r.payload).map fun inserted =>
            (inserted, .done ())
        else (started.insertRecord r.payload).map fun inserted => (inserted, .done ()) := by
      rw [State.insert, hs]
    rw [hinsert]
    by_cases hne : started.records = []
    · have hflush : started.flush env = (started, none) := by
        rw [State.flush, if_pos hne]
      obtain ⟨next, hnx, hinserted⟩ := hdirect
      refine ⟨next, _, ?_, hinserted⟩
      rw [hflush]
      split_ifs with hfull hflight
      · cases hflight
      · exact hnx
      · exact hnx
    · have hi : (started.flush env).2 = some started.chunks.length := by
        rw [flush_eq started hne]
      rw [hi]
      split_ifs with hfull hflight
      · refine ⟨_, _, rfl, .io _ _ (hstarted.flush hne) (collected_flush runs hne) ?_ hs ?_ ?_⟩
        all_goals rw [flush_eq started hne]
        exact append_ne_nil_of_right_ne_nil _ (cons_ne_nil _ _)
      · have hidle' : Idle (started.flush env).1 := hidleStarted.flush hne (by simpa using hflight)
        obtain ⟨next, hnx, hinserted⟩ := (hstarted.flush hne).insertRecord hvalid hidle'
        refine ⟨next, _, hnx, hinserted.trans (collected_flush runs hne) (fun h => ?_) ?_⟩
        · rw [flush_eq started hne] at h
          exact absurd h (append_ne_nil_of_right_ne_nil _ (cons_ne_nil _ _))
        · rw [flush_eq started hne]
      · obtain ⟨next, hnx, hinserted⟩ := hdirect
        exact ⟨next, _, hnx, hinserted⟩

end Insert

/-! ## The first reads -/

theorem mapM_eq_ok {α β ε : Type} {f : α → Except ε β} {g : α → β} {list : List α}
    (h : ∀ v ∈ list, f v = .ok (g v)) : list.mapM f = .ok (list.map g) := by
  induction list with
  | nil => rfl
  | cons v list ih =>
    rw [mapM_cons, h v mem_cons_self, ih fun x hx => h x (mem_cons_of_mem _ hx)]
    rfl

/-- A chunk with a larger buffer. -/
def grownChunk (size : ℕ) (chunk : SortedChunk) : SortedChunk :=
  { chunk with capacity := max chunk.capacity (min size chunk.chunkSize) }

theorem Written.totalBytesRead (hw : Written file c run) : c.totalBytesRead = 0 := by
  have hpos := hw.holds.position
  rw [hw.buffer] at hpos
  exact hpos.symm

theorem Written.growBuffer (hw : Written file c run) (size : ℕ) :
    c.growBuffer size = .ok (grownChunk size c) := by
  rw [SortedChunk.growBuffer, if_neg (not_not.2 hw.totalBytesRead)]
  rfl

theorem Written.remains (hw : Written file c run) {i : ℕ} (hfed : FedBy env i file c) (size : ℕ) :
    Remains file ((grownChunk size c).read env i file) run := by
  have hholds : Holds file (grownChunk size c) [] run :=
    hw.holds.congr ⟨rfl, rfl⟩ rfl rfl (le_max_left _ _)
  refine remains_read hholds hfed hw.records hw.nextState fun payload hpayload => ?_
  have hpos := length_writeVarint_pos (hholds.fits payload (mem_of_mem_head? hpayload)).1
  change c.buffer.length < _
  rw [hw.buffer, length_encodeRecord]
  exact Nat.add_pos_left hpos _

/-- `init_chunk_heap` starts a read of each chunk and yields. -/
theorem Collecting.initChunkHeap (hcollecting : Collecting s runs)
    (hrs : s.records = []) (hfed : Fed env s) :
    ∃ next, s.initChunkHeap env = .ok (next, .io) ∧ Filling next runs [] 0 ∧
      next.chunks.length = s.chunks.length ∧ next.sortState = s.sortState := by
  let size := config.maxBufferSize / s.chunks.length
  have hrun : ∀ {i : ℕ} {c : SortedChunk}, s.chunks[i]? = some c →
      ∃ run, runs[i]? = some run ∧ Written s.file c (payloads run) := by
    intro i c hc
    have hlt : i < runs.length := hcollecting.length ▸ (List.getElem?_eq_some_iff.1 hc).1
    exact ⟨runs[i], getElem?_eq_getElem hlt, hcollecting.chunks i c _ hc (getElem?_eq_getElem hlt)⟩
  have hgrown : s.chunks.mapM (SortedChunk.growBuffer · size) =
      .ok (s.chunks.map (grownChunk size)) := by
    refine mapM_eq_ok fun c hc => ?_
    obtain ⟨i, hi⟩ := mem_iff_getElem?.1 hc
    obtain ⟨run, -, hw⟩ := hrun hi
    exact hw.growBuffer size
  refine ⟨{ s with
    chunks := (s.chunks.map (grownChunk size)).mapIdx fun i c =>
      c.read env i s.file
    initChunkHeapState := .pushChunk 0 }, ?_, ⟨⟨?_, ?_, ?_, hcollecting.sorted, ?_, ?_, ?_⟩, ?_,
      hcollecting.pending, rfl⟩, ?_, rfl⟩
  · rw [State.initChunkHeap, hcollecting.state]
    rw [if_neg (not_not.2 hrs), hgrown]
    rfl
  · exact hcollecting.heap_eq
  · simpa using hcollecting.length
  · intro i c run hc hi
    simp only [getElem?_mapIdx, getElem?_map, Option.map_map, Option.map_eq_some_iff] at hc
    obtain ⟨old, ho, rfl⟩ := hc
    obtain ⟨run', hrun', hw⟩ := hrun ho
    rw [hi] at hrun'
    cases hrun'
    exact hw.remains (hfed i old ho) size
  · exact fun run hm r hr => (hcollecting.valid run hm r hr).1
  · nofun
  · nofun
  · nofun
  · simp

end Turso.Sorter
