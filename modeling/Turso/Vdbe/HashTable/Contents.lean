import Turso.Vdbe.HashTable.Spilling

/-!
# What a hash table for DISTINCT contains

The entries of a table (`core/vdbe/hash_table.rs`) in terms of the keys that were inserted.  Before the
table spills they are in buckets.  Afterwards each partition has a list of chunks in the spill file and
a buffer (`SpillHolds`), and the place of a hash says where the entries with that hash are (`Placed`):
where it gives an offset there is exactly one, and its bytes are at that offset.
-/

namespace Turso.HashTable

open PackedDistinctKeyPlace SpilledPartition Function List

/-! ## Bytes in a file -/

variable (file : Bytes)

/-- The bytes are in the file at an offset. -/
def HoldsAt (offset : ℕ) (bytes : Bytes) : Prop :=
  bytes <+: file.drop offset

section

variable {file bytes : Bytes} {offset : ℕ}

theorem HoldsAt.pread_eq (hholds : HoldsAt file offset bytes) :
    pread file offset bytes.length = bytes :=
  (prefix_iff_eq_take.1 hholds).symm

theorem HoldsAt.append (hholds : HoldsAt file offset bytes) (more : Bytes) :
    HoldsAt (file ++ more) offset bytes := by
  rw [HoldsAt, drop_append]
  exact hholds.trans (prefix_append _ _)

theorem HoldsAt.left {a b : Bytes} (hholds : HoldsAt file offset (a ++ b)) :
    HoldsAt file offset a :=
  (prefix_append _ _).trans hholds

theorem HoldsAt.right {first second : Bytes} (hholds : HoldsAt file offset (first ++ second)) :
    HoldsAt file (offset + first.length) second := by
  obtain ⟨rest, hrest⟩ := hholds
  refine ⟨rest, ?_⟩
  rw [← drop_drop, ← hrest, append_assoc, drop_left]

end

/-! ## Buckets -/

/-- Buckets with the entries of a list. -/
def fill (count : ℕ) (entries : List HashEntry) : Buckets :=
  entries.foldl insertBucket (replicate count [])

theorem length_fill (count : ℕ) (es : List HashEntry) : (fill count es).length = count := by
  suffices h : ∀ buckets, (es.foldl insertBucket buckets).length = buckets.length by
    rw [fill, h, length_replicate]
  induction es with
  | nil => exact fun _ => rfl
  | cons entry es ih =>
    intro buckets
    rw [foldl_cons, ih, length_insertBucket]

theorem fill_append (n : ℕ) (a b : List HashEntry) :
    fill n (a ++ b) = b.foldl insertBucket (fill n a) :=
  foldl_append

/-- A bucket has the entries whose hashes lead to it. -/
theorem getD_fill {count index : ℕ} (hindex : index < count) (es : List HashEntry) :
    (fill count es).getD index [] =
      es.filter fun entry => bucketIndex count entry.hash = index := by
  induction es using reverseRecOn with
  | nil => simp [fill, getD_eq_getElem?_getD, hindex]
  | append_singleton es entry ih =>
    have hlen := length_fill count es
    rw [fill_append, foldl_cons, foldl_nil, insertBucket, hlen, filter_append, ← ih,
      getD_eq_getElem?_getD, getD_eq_getElem?_getD, getElem?_modify,
      getElem?_eq_getElem (hindex.trans_eq hlen.symm)]
    by_cases hself : bucketIndex count entry.hash = index <;> simp [hself]

theorem flatten_fill {n : ℕ} (hn : 0 < n) (entries : List HashEntry) :
    (fill n entries).flatten.Perm entries := by
  induction entries using reverseRecOn with
  | nil => simp [fill]
  | append_singleton entries e ih =>
    have hne : fill n entries ≠ [] := by
      rw [← length_pos_iff_ne_nil, length_fill]
      exact hn
    rw [fill_append, foldl_cons, foldl_nil]
    exact (flatten_insertBucket hne e).trans
      ((ih.cons e).trans (perm_append_singleton e entries).symm)

/-- A key is in the bucket of its hash if it is in the table. -/
theorem hasKey_fill {cfg : Config} {count : ℕ} (hcount : 0 < count) (es : List HashEntry)
    (key : List Value) :
    cfg.hasKey ((fill count es).getD (bucketIndex count (cfg.hash key)) []) key =
      cfg.hasKey es key := by
  have hindex : bucketIndex count (cfg.hash key) < count := Nat.mod_lt _ hcount
  rw [getD_fill hindex, Config.hasKey, Config.hasKey, any_filter]
  congr 1
  funext entry
  by_cases hhash : entry.hash = cfg.hash key <;> simp [hhash]

/-! ## Places -/

/-- The entries with a hash. -/
def withHash (hash : UInt64) (entries : List HashEntry) : List HashEntry :=
  entries.filter fun entry => entry.hash = hash

theorem withHash_append (hash : UInt64) (first second : List HashEntry) :
    withHash hash (first ++ second) = withHash hash first ++ withHash hash second :=
  filter_append ..

/-- What the place of a hash says about the entries with that hash on disk and in the buffer. -/
def Placed : Option DistinctKeyPlace → List HashEntry → List HashEntry → Prop
  | none, disk, buffer => disk = [] ∧ buffer = []
  | some .inBuffer, disk, buffer => disk = [] ∧ ∃ entry, buffer = [entry]
  | some (.onDisk offset len), disk, buffer => ∃ entry, disk = [entry] ∧ buffer = [] ∧
      len = entry.serializedSize ∧ HoldsAt file offset entry.serialize
  | some .onDiskWithoutOffset, disk, buffer => ∃ entry, disk = [entry] ∧ buffer = []
  | some .sharedByDifferentKeys, _, _ => True

/-- The places of a partition are right. -/
def PlacesHold (places : Places) (disk buffer : List HashEntry) : Prop :=
  ∀ hash, Placed file ((places hash).map get) (withHash hash disk)
    (withHash hash buffer)

section

variable {file : Bytes} {places : Places} {disk buffer : List HashEntry}

theorem Placed.append {place : Option DistinctKeyPlace} (hplaced : Placed file place disk buffer)
    (more : Bytes) : Placed (file ++ more) place disk buffer := by
  cases place with
  | none => exact hplaced
  | some place =>
    cases place with
    | onDisk offset len =>
      obtain ⟨e, hdisk, hbuffer, hlen, hholds⟩ := hplaced
      exact ⟨e, hdisk, hbuffer, hlen, hholds.append more⟩
    | inBuffer | onDiskWithoutOffset | sharedByDifferentKeys => exact hplaced

theorem PlacesHold.append (hplaces : PlacesHold file places disk buffer) (more : Bytes) :
    PlacesHold (file ++ more) places disk buffer :=
  fun hash => (hplaces hash).append more

variable {offset : ℕ}

/-- A place on disk that may have lost its offset. -/
theorem placed_new_onDisk {e : HashEntry} (hholds : HoldsAt file offset e.serialize) :
    Placed file (some (get
      (new (.onDisk offset e.serializedSize)))) [e] [] := by
  rcases get_new (.onDisk offset e.serializedSize) with hget | ⟨-, hget⟩
  · rw [hget]
    exact ⟨e, rfl, rfl, rfl, hholds⟩
  · rw [hget]
    exact ⟨e, rfl, rfl⟩

/-- The first entry of a buffer goes to disk. -/
theorem recordDistinctKeyOnDisk_spec {e : HashEntry} {rest : List HashEntry}
    (hplaces : PlacesHold file places disk (e :: rest))
    (hholds : HoldsAt file offset e.serialize) :
    ∃ places', recordDistinctKeyOnDisk places e.hash offset e.serializedSize = .ok places' ∧
      PlacesHold file places' (disk ++ [e]) rest ∧
      ∀ hash, (places' hash).isSome = (places hash).isSome := by
  have hself := hplaces e.hash
  have hbuffer : withHash e.hash (e :: rest) = e :: withHash e.hash rest := by
    simp [withHash]
  have hx : ∀ hash ≠ e.hash, withHash hash (disk ++ [e]) = withHash hash disk ∧
        withHash hash (e :: rest) = withHash hash rest := by
    intro hash hne
    simp [withHash, hne.symm]
  rw [hbuffer] at hself
  unfold recordDistinctKeyOnDisk
  cases hplace : places e.hash with
  | none =>
    rw [hplace] at hself
    cases hself.2
  | some packed =>
    rw [hplace] at hself
    dsimp only
    rw [Option.map_some] at hself
    cases hget : get packed with
    | onDisk offset' len' =>
      rw [hget] at hself
      obtain ⟨_, _, hnil, _⟩ := hself
      cases hnil
    | onDiskWithoutOffset =>
      rw [hget] at hself
      obtain ⟨_, _, hnil⟩ := hself
      cases hnil
    | inBuffer =>
      rw [hget] at hself
      obtain ⟨hdisk, x, hsingle⟩ := hself
      obtain ⟨-, hrest⟩ := cons.inj hsingle
      refine ⟨_, rfl, fun hash => ?_, fun hash => ?_⟩
      · by_cases hhash : hash = e.hash
        · rw [hhash, update_self, withHash_append, hdisk, hrest]
          simpa [withHash] using placed_new_onDisk hholds
        · rw [update_of_ne hhash, (hx hash hhash).1, ← (hx hash hhash).2]
          exact hplaces hash
      · by_cases hhash : hash = e.hash
        · rw [hhash, update_self, hplace]
          rfl
        · rw [update_of_ne hhash]
    | sharedByDifferentKeys =>
      refine ⟨_, rfl, fun hash => ?_, fun _ => rfl⟩
      by_cases hhash : hash = e.hash
      · rw [hhash, hplace, Option.map_some, hget]
        trivial
      · rw [(hx hash hhash).1, ← (hx hash hhash).2]
        exact hplaces hash

/-- A buffer is written as a chunk, and the places of its keys are recorded. -/
theorem serializeBuffer_spec {entries : List HashEntry}
    (hplaces : PlacesHold file places disk entries)
    (hholds : HoldsAt file offset (encodeEntries entries))
    (hfits : ∀ e ∈ entries, e.Fits) :
    ∃ places', serializeBuffer places offset entries = .ok (encodeEntries entries, places') ∧
      PlacesHold file places' (disk ++ entries) [] ∧
      ∀ hash, (places' hash).isSome = (places hash).isSome := by
  induction entries generalizing places disk offset with
  | nil => exact ⟨places, rfl, by simpa using hplaces, fun _ => rfl⟩
  | cons e entries ih =>
    rw [encodeEntries_cons, encodeEntry] at hholds
    obtain ⟨places', hr, hplaces', hsome⟩ := recordDistinctKeyOnDisk_spec hplaces hholds.left.right
    have hrest : HoldsAt file (offset + (writeVarint e.serializedSize).length +
        e.serialize.length) (encodeEntries entries) := by
      have hright := hholds.right
      rwa [length_append, ← Nat.add_assoc] at hright
    obtain ⟨places'', hserialize, hplaces'', hsome'⟩ := ih hplaces' hrest
      fun x hx => hfits x (mem_cons_of_mem _ hx)
    refine ⟨places'', ?_, by simpa using hplaces'', fun hash => (hsome' hash).trans (hsome hash)⟩
    rw [serializeBuffer, hr]
    simp only [bind, Except.bind, hserialize]
    rw [encodeEntries_cons, encodeEntry]

/-- A new key goes to the buffer. -/
theorem PlacesHold.insert (hplaces : PlacesHold file places disk buffer) (e : HashEntry)
    {place : DistinctKeyPlace}
    (hplace : place = match places e.hash with
      | none => .inBuffer
      | some _ => .sharedByDifferentKeys) :
    PlacesHold file (update places e.hash (some (new place)))
      disk (buffer ++ [e]) := by
  intro hash
  by_cases hhash : hash = e.hash
  · subst hhash
    rw [update_self]
    cases hb : places e.hash with
    | none =>
      rw [hb] at hplace
      have hself := hplaces e.hash
      rw [hb] at hself
      obtain ⟨hdisk, hbuffer⟩ := hself
      rw [hplace, withHash_append, hdisk, hbuffer]
      exact ⟨rfl, e, by simp [withHash]⟩
    | some packed =>
      rw [hb] at hplace
      rw [hplace]
      trivial
  · have hsame : withHash hash (buffer ++ [e]) = withHash hash buffer := by
      simp [withHash, Ne.symm hhash]
    rw [update_of_ne hhash, hsame]
    exact hplaces hash

end

/-! ## Partitions -/

/-- A chunk of the file has the entries of a list. -/
structure ChunkHolds (chunk : SpillChunk) (entries : List HashEntry) : Prop where
  size : chunk.sizeBytes = (encodeEntries entries).length
  count : chunk.numEntries = entries.length
  bytes : HoldsAt file chunk.fileOffset (encodeEntries entries)

/-- The chunks of a partition have the entries of these lists, and so do its buckets as far as it has
been loaded. -/
structure PartitionHolds (partition : SpilledPartition) (contents : List (List HashEntry)) :
    Prop where
  chunks : Forall₂ (ChunkHolds file) partition.chunks contents
  spilled : partition.state ≠ .inMemory
  onDisk : partition.state = .onDisk →
    partition.currentChunkIdx = 0 ∧ partition.ioState ≠ .readComplete
  loading : partition.state = .loading → ∃ count > 0,
    partition.buckets = fill count (contents.take partition.currentChunkIdx).flatten ∧
    partition.partialEntry = [] ∧
    partition.parsedEntries = (contents.take partition.currentChunkIdx).flatten.length ∧
    (partition.ioState = .readComplete → ∃ entries,
      contents[partition.currentChunkIdx]? = some entries ∧
        partition.readBuffer = encodeEntries entries)
  loaded : partition.state = .loaded → ∃ count > 0,
    partition.buckets = fill count contents.flatten

namespace PartitionHolds

variable {file : Bytes} {p : SpilledPartition} {contents : List (List HashEntry)}

section
variable (hholds : PartitionHolds file p contents)
include hholds

theorem append (more : Bytes) : PartitionHolds (file ++ more) p contents :=
  { hholds with
    chunks := hholds.chunks.imp fun _ _ hc =>
      ⟨hc.size, hc.count, hc.bytes.append more⟩ }

theorem unload : PartitionHolds file p.unload contents where
  chunks := hholds.chunks
  spilled := nofun
  onDisk _ := ⟨rfl, nofun⟩
  loading := nofun
  loaded := nofun

theorem exists_chunk {i : ℕ} (hi : i < p.chunks.length) :
    ∃ c entries, p.chunks[i]? = some c ∧ contents[i]? = some entries ∧
      ChunkHolds file c entries := by
  have hlen := hholds.chunks.length_eq
  refine ⟨_, _, getElem?_eq_getElem hi, getElem?_eq_getElem (hlen ▸ hi), ?_⟩
  exact forall₂_iff_get.1 hholds.chunks |>.2 i hi (hlen ▸ hi)

theorem totalNumEntries_eq : p.totalNumEntries = contents.flatten.length := by
  rw [totalNumEntries, length_flatten]
  congr 1
  have hchunks := hholds.chunks
  clear hholds
  generalize p.chunks = chunks at hchunks
  induction hchunks with
  | nil => rfl
  | cons hc _ ih => rw [map_cons, map_cons, hc.count, ih]

/-- The buckets of a partition that is about to be read. -/
theorem beginLoad_spec (hld : p.isLoaded = false) : ∃ n > 0,
      p.beginLoad.buckets = fill n (contents.take p.currentChunkIdx).flatten ∧
      p.beginLoad.partialEntry = [] ∧
      p.beginLoad.parsedEntries = (contents.take p.currentChunkIdx).flatten.length := by
  rcases isLoaded_eq_false_iff.1 hld with hstate | hstate
  · have hi := (hholds.onDisk hstate).1
    rw [beginLoad, if_pos ⟨hstate, hi⟩, hi]
    exact ⟨_, lt_of_lt_of_le (by decide) (le_max_right _ 64), rfl, rfl, rfl⟩
  · obtain ⟨n, hn, hbuckets, hleft, hparsed, -⟩ := hholds.loading hstate
    rw [beginLoad, if_neg (by simp [hstate])]
    exact ⟨n, hn, hbuckets, hleft, hparsed⟩

theorem reading (hld : p.isLoaded = false) : PartitionHolds file
      { p.beginLoad with ioState := .waitingForRead, state := .loading } contents where
  chunks := by
    rw [beginLoad_frame.1]
    exact hholds.chunks
  spilled := nofun
  onDisk := nofun
  loading _ := by
    obtain ⟨n, hn, hbuckets, hleft, hparsed⟩ := hholds.beginLoad_spec hld
    rw [beginLoad_frame.2]
    exact ⟨n, hn, hbuckets, hleft, hparsed, nofun⟩
  loaded := nofun

theorem completeRead (hs : p.state = .loading) (hi : p.currentChunkIdx < p.chunks.length) :
    PartitionHolds file (p.completeRead file) contents := by
  by_cases hio : p.ioState = .waitingForRead
  swap
  · rw [SpilledPartition.completeRead, if_neg hio]
    exact hholds
  obtain ⟨c, entries, hc, hentries, hchunkHolds⟩ := hholds.exists_chunk hi
  rw [SpilledPartition.completeRead, if_pos hio, hc]
  obtain ⟨n, hn, hbuckets, hleft, hparsed, -⟩ := hholds.loading hs
  refine ⟨hholds.chunks, hholds.spilled, fun h => ?_, fun _ => ?_, fun h => ?_⟩
  · cases hs.symm.trans h
  · refine ⟨n, hn, hbuckets, hleft, hparsed, fun _ => ⟨entries, hentries, ?_⟩⟩
    dsimp only
    rw [hchunkHolds.size]
    exact hchunkHolds.bytes.pread_eq
  · cases hs.symm.trans h

end

end PartitionHolds

theorem length_le_encodeEntries (es : List HashEntry) : es.length ≤ (encodeEntries es).length := by
  induction es with
  | nil => exact le_rfl
  | cons e es ih =>
    have hlen : 8 ≤ e.serialize.length := by simp [HashEntry.serialize]
    rw [encodeEntries_cons, encodeEntry, length_append, length_append, length_cons]
    omega

theorem PartitionHolds.parseChunk {file : Bytes} {p : SpilledPartition}
    {c : List (List HashEntry)} (hholds : PartitionHolds file p c)
    (hs : p.state = .loading) (hio : p.ioState = .readComplete)
    (hfits : ∀ es ∈ c, ∀ e ∈ es, e.Fits ∧ e.serializedSize < 2 ^ 64) :
    ∃ parsed n, p.parseChunk = .ok parsed ∧ 0 < n ∧
      parsed.buckets = fill n (c.take parsed.currentChunkIdx).flatten ∧
      parsed.partialEntry = [] ∧ parsed.ioState = .none ∧
      parsed.parsedEntries = (c.take parsed.currentChunkIdx).flatten.length := by
  obtain ⟨n, hn, hbuckets, hleft, hparsed, hread⟩ := hholds.loading hs
  obtain ⟨es, hes, hbuffer⟩ := hread hio
  have hm := mem_of_getElem? hes
  have hparse := @parseEntries_encodeEntries es (encodeEntries es).length
    (length_le_encodeEntries es) (hfits es hm)
  have htake : c.take (p.currentChunkIdx + 1) = c.take p.currentChunkIdx ++ [es] := by
    rw [take_add_one, hes]
    rfl
  unfold SpilledPartition.parseChunk
  rw [hleft, hbuffer, nil_append]
  dsimp only
  rw [hparse]
  refine ⟨_, n, rfl, hn, ?_, rfl, rfl, ?_⟩
  · dsimp only
    rw [htake, flatten_append, flatten_singleton, fill_append, hbuckets]
  · dsimp only
    rw [htake, flatten_append, flatten_singleton, length_append, hparsed]

end Turso.HashTable
