import Turso.Vdbe.HashTable.Accounting
import Turso.Vdbe.HashTable.DistinctKeys

/-!
# Looking up a key for DISTINCT

How `insert_distinct` (`core/vdbe/hash_table.rs`) finds an equal key wherever it may be: in the buffer of
its partition, on disk at a known offset (`spilledKeyEquals_spec`), or anywhere in a partition that has
to be loaded (`spilledPartitionHasKey_spec`).  A lookup that yields has fewer reads left when it is made
again (`Config.readsLeft`).
-/

namespace Turso.HashTable

open Config SpilledPartition List PackedDistinctKeyPlace

variable {cfg : Config} {env : Environment} {state : State} {keys : List (List Value)}
  {key : List Value} {reading : Option (ℕ × ℕ)}
variable {spill' : SpillState} {i : ℕ}

/-! ## Keys that are known -/

variable (config : Config)

/-- Whether an equal key has been inserted. -/
def Config.known (keys : List (List Value)) (key : List Value) : Bool :=
  keys.any fun earlier => config.equal earlier key

theorem Config.hash_eq {first second : List Value} (h : cfg.equal first second = true) :
    cfg.hash first = cfg.hash second :=
  congrArg cfg.hasher (keyWrites_eq h)

theorem hasKey_iff {es : List HashEntry} : cfg.hasKey es key = true ↔
    ∃ e ∈ es, e.hash = cfg.hash key ∧ cfg.equal e.keyValues key = true := by
  simp [hasKey]

theorem hasKey_withHash (es : List HashEntry) :
    cfg.hasKey (withHash (cfg.hash key) es) key = cfg.hasKey es key := by
  rw [hasKey, hasKey, withHash, any_filter]
  congr 1
  funext entry
  by_cases hhash : entry.hash = cfg.hash key <;> simp [hhash]

theorem hasKey_map_entry : cfg.hasKey (keys.map cfg.entry) key = cfg.known keys key := by
  rw [Bool.eq_iff_iff, hasKey_iff]
  simp only [mem_map, exists_exists_and_eq_and, known, any_eq_true]
  constructor
  · rintro ⟨earlier, hearlier, -, hequal⟩
    exact ⟨earlier, hearlier, hequal⟩
  · rintro ⟨earlier, hearlier, hequal⟩
    exact ⟨earlier, hearlier, cfg.hash_eq hequal, hequal⟩

/-- The partition of a key. -/
abbrev Config.partition (spill : SpillState) (key : List Value) : ℕ :=
  spill.partitioning.index (config.hash key)

variable {c : ℕ → List (List HashEntry)} {file : Bytes}

/-- A key is known if it is in its partition, in the buffer or on disk. -/
theorem SpillHolds.known_eq {sp : SpillState}
    (hholds : SpillHolds cfg file keys c sp) :
    cfg.known keys key = (cfg.hasKey (sp.partitionBuffers (cfg.partition sp key)).entries key ||
        cfg.hasKey (c (cfg.partition sp key)).flatten key) := by
  set i := cfg.partition sp key with hi
  rw [Bool.eq_iff_iff, Bool.or_eq_true, hasKey_iff, hasKey_iff, known, any_eq_true]
  constructor
  · rintro ⟨earlier, hearlier, hequal⟩
    have hhash := cfg.hash_eq hequal
    have he := (hholds.entries i (cfg.entry earlier)).2 ⟨earlier, hearlier, rfl, by rw [hhash]⟩
    rcases mem_append.1 he with hdisk | hbuffer
    · exact .inr ⟨_, hdisk, hhash, hequal⟩
    · exact .inl ⟨_, hbuffer, hhash, hequal⟩
  · have hknown : ∀ e ∈ (c i).flatten ++ (sp.partitionBuffers i).entries,
        cfg.equal e.keyValues key = true → ∃ earlier ∈ keys, cfg.equal earlier key = true := by
      intro e he hequal
      obtain ⟨earlier, hearlier, rfl, -⟩ := (hholds.entries i e).1 he
      exact ⟨earlier, hearlier, hequal⟩
    rintro (⟨e, he, -, hequal⟩ | ⟨e, he, -, hequal⟩)
    · exact hknown e (mem_append_right _ he) hequal
    · exact hknown e (mem_append_left _ he) hequal

/-! ## States between two calls -/

/-- The state of a table for DISTINCT between two calls. -/
structure Inv (keys : List (List Value)) (reading : Option (ℕ × ℕ)) (state : State) : Prop where
  sound : Sound state
  insertable : state.phase.insertable = true
  fits : ∀ key ∈ keys, config.Fits key
  unspilled : state.spillState = none →
    reading = none ∧ ∃ count > 0, state.buckets = fill count (keys.map config.entry)
  spilled : ∀ spill, state.spillState = some spill → Settled config keys reading spill

theorem inv_of_spilled {sp : SpillState} (hsound : Sound state)
    (hinsertable : state.phase.insertable = true) (hfits : ∀ key ∈ keys, cfg.Fits key)
    (hsp : state.spillState = some sp) (hsettled : Settled cfg keys reading sp) :
    Inv cfg keys reading state := by
  refine ⟨hsound, hinsertable, hfits, fun hno => ?_, fun sp' hsp' => ?_⟩
  · rw [hsp] at hno
    cases hno
  · rw [hsp] at hsp'
    cases hsp'
    exact hsettled

/-- The place of a key. -/
def Config.place (spill : SpillState) (key : List Value) : Option DistinctKeyPlace :=
  (spill.distinctKeyPlaces (spill.partitioning.index (config.hash key)) (config.hash key)).map
    get

/-- What was read is the entry at the place of the key. -/
def ReadFor (key : List Value) (reading : Option (ℕ × ℕ)) (spill : SpillState) : Prop :=
  ∀ offset len, reading = some (offset, len) → config.place spill key = some (.onDisk offset len)

/-- The number of reads before a key can be looked up. -/
def Config.readsLeft (spill : SpillState) (key : List Value) : ℕ :=
  match config.place spill key with
  | none | some .inBuffer => 0
  | some (.onDisk _ _) => if spill.distinctKeyRead.isSome then 0 else 1
  | some .onDiskWithoutOffset | some .sharedByDifferentKeys =>
    match spill.partitions (spill.partitioning.index (config.hash key)) with
    | none => 0
    | some partition => if partition.isLoaded then 0 else partition.unread

/-- Two spill states with the same buffers and places. -/
structure SameKeys (spill spill' : SpillState) : Prop where
  partitioning : spill'.partitioning = spill.partitioning
  buffers : spill'.partitionBuffers = spill.partitionBuffers
  places : spill'.distinctKeyPlaces = spill.distinctKeyPlaces

theorem Reloads.sameKeys {spill : SpillState} (hreloads : Reloads i spill spill') :
    SameKeys spill spill' := by
  rw [hreloads.rest]
  exact ⟨rfl, rfl, rfl⟩

/-! ## Looking up a key -/

/-- A state with the same keys in which IO has ended. -/
structure Keeping (keys : List (List Value)) (reading : Option (ℕ × ℕ)) (state : State)
    (spill : SpillState) (next : State) (spill' : SpillState) : Prop where
  sound : Sound next
  phase : next.phase = state.phase
  spilled : next.spillState = some spill'
  settled : Settled config keys reading spill'
  same : SameKeys spill spill'

/-- What a lookup leads to. -/
def LookupOutcome (keys : List (List Value)) (key : List Value) (state : State) (spill : SpillState)
    :
    State × IOResult Bool → Prop
  | (next, .done found) => found = config.known keys key ∧
      ∃ spill', Keeping config keys none state spill next spill'
  | (next, .io) => ∃ spill' reading, Keeping config keys reading state spill next.complete spill' ∧
      ReadFor config key reading spill' ∧ config.readsLeft spill' key < config.readsLeft spill key

theorem Sound.complete (hsound : Sound state) : Sound state.complete :=
  (similar_complete state).sound hsound

variable {spill : SpillState}

theorem Reloads.others_ready (hreloads : Reloads i spill spill') (hready : Ready spill) :
    ∀ x ≠ i, ∀ p, spill'.partitions x = some p → p.ioState ≠ .waitingForRead := by
  intro x hx p hp
  rcases hreloads.others x hx with hsame | ⟨before, -, hunloaded⟩
  · exact hready x p (hsame ▸ hp)
  · rw [hunloaded] at hp
    cases hp
    nofun

variable {next : SpilledPartition}

theorem Reloads.ready (hreloads : Reloads i spill spill')
    (hready : Ready spill) (hself : spill'.partitions i = some next)
    (hio : next.ioState ≠ .waitingForRead) : Ready spill' := by
  intro x p hp
  by_cases hx : x = i
  · subst hx
    rw [hself] at hp
    cases hp
    exact hio
  · exact hreloads.others_ready hready x hx p hp

theorem Settled.reloads
    (hsettled : Settled cfg keys reading spill)
    (hholds : SpillHolds cfg spill.file keys c spill)
    (hreloads : Reloads i spill spill') (hself : spill'.partitions i = some next)
    (hnx : PartitionHolds spill.file next (c i)) (hio : next.ioState ≠ .waitingForRead) :
    Settled cfg keys reading spill' := by
  have hholds' := hholds.reloads hreloads hself hnx
  have hready := hreloads.ready hsettled.ready hself hio
  obtain ⟨partitions, rfl⟩ : ∃ partitions, spill' = { spill with partitions } :=
    ⟨_, hreloads.rest⟩
  exact ⟨⟨c, hholds'⟩, hsettled.offset, hsettled.inFlight, hready, hsettled.read⟩

theorem reloads_complete {q : SpilledPartition} (hinFlight : spill.inFlight = none)
    (hread : spill.distinctKeyRead = none)
    (hothers : ∀ x ≠ i, ∀ p, spill.partitions x = some p → p.ioState ≠ .waitingForRead)
    (hself : spill.partitions i = some q) :
    Reloads i spill spill.complete ∧
      spill.complete.partitions i = some (q.completeRead spill.file) := by
  have hwrite : spill.completeWrite = spill := by
    rw [SpillState.completeWrite, hinFlight]
  have hcomplete : spill.complete = { spill with
      partitions := fun x => (spill.partitions x).map (·.completeRead spill.file) } := by
    rw [SpillState.complete, hwrite, hread, Option.map_none]
  rw [hcomplete]
  refine ⟨⟨rfl, fun x hx => .inl ?_⟩, ?_⟩
  · dsimp only
    cases hp : spill.partitions x with
    | none => rfl
    | some p =>
      rw [Option.map_some, completeRead, if_neg (hothers x hx p hp)]
  · dsimp only
    rw [hself]
    rfl

/-- The entry at a place has been read. -/
def SpillState.withRead (spill : SpillState) (reading : Option (ℕ × ℕ)) : SpillState :=
  { spill with
    distinctKeyRead := reading.map fun place =>
      ⟨place.1, place.2, .readComplete, pread spill.file place.1 place.2⟩ }

theorem keeping_withRead (hinv : Inv cfg keys reading t) (hsp : t.spillState = some spill)
    (reading' : Option (ℕ × ℕ)) (ioCount : ℕ) :
    Keeping cfg keys reading' t spill
      { t with spillState := some (spill.withRead reading'), ioCount := ioCount }
      (spill.withRead reading') := by
  have hsettled := hinv.spilled spill hsp
  obtain ⟨c, hholds⟩ := hsettled.holds
  refine ⟨(similar_keyRead hsp _ _).sound hinv.sound, rfl, rfl, ?_, ⟨rfl, rfl, rfl⟩⟩
  exact { hsettled with holds := ⟨c, { hholds with }⟩, read := rfl }

section
variable
  (hbuffer : cfg.hasKey (spill.partitionBuffers (cfg.partition spill key)).entries key = false)
include hbuffer

/-- The comparison with the entry that was read. -/
theorem compareSpilledKey_spec {offset len : ℕ}
    (hholds : SpillHolds cfg file keys c spill) (hfits : ∀ key ∈ keys, cfg.Fits key)
    (hplace : cfg.place spill key = some (.onDisk offset len)) :
    compareSpilledKey cfg (pread file offset len) len key = .ok (cfg.known keys key) := by
  set j := cfg.partition spill key with hj
  have hplaced := hholds.places j (cfg.hash key)
  rw [show (spill.distinctKeyPlaces j (cfg.hash key)).map get = _
    from hplace] at hplaced
  obtain ⟨entry, hdisk, -, hlen, hat⟩ := hplaced
  have hentry : entry ∈ withHash (cfg.hash key) (c j).flatten := by
    rw [hdisk]
    exact mem_singleton_self _
  obtain ⟨hm, hhash⟩ := mem_filter.1 hentry
  have hentryFits := (hholds.fits hfits (mem_append_left _ hm)).1
  have hlength := length_serialize hentryFits
  have hknown : cfg.known keys key = cfg.equal entry.keyValues key := by
    rw [hholds.known_eq, hbuffer, Bool.false_or, ← hasKey_withHash, hdisk]
    simpa [hasKey] using fun _ => of_decide_eq_true hhash
  have hread : pread file offset len = entry.serialize := by
    rw [hlen, ← hlength]
    exact hat.pread_eq
  rw [compareSpilledKey, hread, if_neg (by simp [hlen, hlength]), deserialize_serialize hentryFits]
  simp only [bind, Except.bind]
  rw [if_neg (by simp [hlen, hlength]), hknown]

/-- A key in a partition that is loaded. -/
theorem loadedPartitionHasKey_eq
    {partition : SpilledPartition} (hsp : state.spillState = some spill)
    (hholds : SpillHolds cfg file keys c spill)
    (hpartition : spill.partitions (cfg.partition spill key) = some partition)
    (hld : partition.state = .loaded) :
    loadedPartitionHasKey cfg state (cfg.partition spill key) key = cfg.known keys key := by
  obtain ⟨count, hcount, hbuckets⟩ := (hholds.partitions _ partition hpartition).loaded hld
  have hne : fill count (c (cfg.partition spill key)).flatten ≠ [] := by
    rw [← length_pos_iff_ne_nil, length_fill]
    exact hcount
  rw [loadedPartitionHasKey, State.partition_of_spill hsp, hpartition]
  dsimp only
  rw [hbuckets, if_neg hne, length_fill, hasKey_fill hcount, hholds.known_eq, hbuffer, Bool.false_or]

variable (hinv : Inv cfg keys reading state) (hspill : state.spillState = some spill)
include hinv hspill

theorem spilledKeyEquals_spec {offset len : ℕ} (hreadFor : ReadFor cfg key reading spill)
    (hplace : cfg.place spill key = some (.onDisk offset len)) :
    ∃ result, spilledKeyEquals cfg env state spill offset len key = .ok result ∧
      LookupOutcome cfg keys key state spill result := by
  have hsettled := hinv.spilled spill hspill
  obtain ⟨c, hholds⟩ := hsettled.holds
  have hcompare := compareSpilledKey_spec hbuffer hholds hinv.fits hplace
  unfold spilledKeyEquals
  rw [hsettled.read]
  cases reading with
  | none =>
    unfold submitKeyRead
    split_ifs
    · rw [hcompare]
      exact ⟨_, rfl, rfl, _, keeping_withRead hinv hspill none (state.ioCount + 1)⟩
    · refine ⟨_, rfl, ?_⟩
      have hcomplete := hsettled.complete_withRead (some ⟨offset, len, .waitingForRead, []⟩)
      refine ⟨spill.withRead (some (offset, len)), some (offset, len), ?_, ?_, ?_⟩
      · rw [State.complete]
        rw [Option.map_some, hcomplete]
        exact keeping_withRead hinv hspill (some (offset, len)) (state.ioCount + 1)
      · rintro _ _ ⟨⟩
        exact hplace
      · have hplace' : cfg.place (spill.withRead (some (offset, len))) key =
            some (.onDisk offset len) := hplace
        rw [readsLeft, readsLeft, hplace, hplace', hsettled.read]
        exact Nat.zero_lt_one
  | some place =>
    obtain ⟨offset', len'⟩ := place
    have hsame := hreadFor offset' len' rfl
    rw [hplace] at hsame
    cases hsame
    rw [Option.map_some]
    dsimp only
    rw [if_neg (by simp), if_pos rfl, hcompare]
    exact ⟨_, rfl, rfl, _, keeping_withRead hinv hspill none state.ioCount⟩

/-- A key that may be anywhere in its partition. -/
theorem spilledPartitionHasKey_spec (hreading : reading = none)
    (hplace : cfg.place spill key = some .onDiskWithoutOffset ∨
      cfg.place spill key = some .sharedByDifferentKeys) :
    ∃ result, spilledPartitionHasKey cfg env state (cfg.partition spill key) key =
        .ok result ∧ LookupOutcome cfg keys key state spill result := by
  subst hreading
  have hsettled := hinv.spilled spill hspill
  obtain ⟨c, hholds⟩ := hsettled.holds
  have hself : Keeping cfg keys none state spill state spill :=
    ⟨hinv.sound, rfl, hspill, hsettled, ⟨rfl, rfl, rfl⟩⟩
  have ht := State.partition_of_spill hspill (cfg.partition spill key)
  unfold spilledPartitionHasKey
  rw [ht]
  cases hq : spill.partitions (cfg.partition spill key) with
  | none =>
    have hload : loadSpilledPartition cfg env state
        (cfg.partition spill key) = .ok (state, .done ()) := by
      rw [loadSpilledPartition, ht, hq, Option.map_none, Option.getD_none, loadLoop,
        loadTurn, ht, hq]
      rfl
    have hknown : cfg.known keys key = false := by
      rw [hholds.known_eq, hbuffer, hholds.absent _ hq]
      rfl
    refine ⟨(state, .done false), ?_, hknown.symm, spill, hself⟩
    rw [Option.any_none, if_neg Bool.false_ne_true, hload]
    simp only [bind, Except.bind, loadedPartitionHasKey, ht, hq]
  | some q =>
    have hpartitionHolds := hholds.partitions _ q hq
    rw [Option.any_some]
    by_cases hld : q.isLoaded = true
    · rw [if_pos hld]
      have ht' : q.state = .loaded :=
        (isLoaded_iff.1 hld).resolve_right hpartitionHolds.spilled
      exact ⟨_, rfl, loadedPartitionHasKey_eq hbuffer hspill hholds hq ht', spill, hself⟩
    rw [if_neg hld]
    rw [Bool.not_eq_true] at hld
    have hfits : ∀ es ∈ c (cfg.partition spill key),
        ∀ entry ∈ es, entry.Fits ∧ entry.serializedSize < 2 ^ 64 :=
      fun es hes entry hentry => hholds.fits hinv.fits
        (mem_append_left _ (mem_flatten.2 ⟨es, hes, hentry⟩))
    obtain ⟨final, result, next, hload, ⟨spill', hspill', hreloads, hnx⟩, houtcome⟩ :=
      @loadSpilledPartition_spec cfg env state spill _ q _ hinv.sound hspill hq
        ⟨hpartitionHolds, hld, hsettled.ready _ q hq⟩ hfits
    have hkeeps := keeps_loadLoop hinv.sound hload
    rw [hload]
    cases result with
    | done =>
      obtain ⟨hnextHolds, ht', hio⟩ := houtcome
      have hsettled' := hsettled.reloads hholds hreloads hnx hnextHolds hio
      have hholds' := hholds.reloads hreloads hnx hnextHolds
      have hj : cfg.partition spill' key = cfg.partition spill key :=
        congrArg (Partitioning.index · _) hreloads.sameKeys.partitioning
      refine ⟨_, rfl, ?_, spill', hkeeps.sound, hkeeps.phase, hspill', hsettled', hreloads.sameKeys⟩
      have hanswer := loadedPartitionHasKey_eq (by rw [hj, hreloads.sameKeys.buffers]; exact hbuffer)
        hspill' hholds' (by rw [hj]; exact hnx) ht'
      rw [hj] at hanswer
      exact hanswer
    | io =>
      obtain ⟨hnextHolds, ht', hj, hio, hunread⟩ := houtcome
      have hfile : spill'.file = spill.file := by rw [hreloads.rest]
      have hinFlight : spill'.inFlight = none := hreloads.rest ▸ hsettled.inFlight
      have hread : spill'.distinctKeyRead = none := hreloads.rest ▸ hsettled.read
      obtain ⟨hcompletes, hcompleted⟩ := reloads_complete hinFlight hread
        (hreloads.others_ready hsettled.ready) hnx
      rw [hfile] at hcompleted
      have hreadComplete : (next.completeRead spill.file).ioState = .readComplete := by
        rw [completeRead, if_pos hio, getElem?_eq_getElem hj]
      have hreloads' := hreloads.trans hcompletes
      have hsettled' := hsettled.reloads hholds hreloads' hcompleted
        (hnextHolds.completeRead ht' hj) (by simp [hreadComplete])
      have hsame := hreloads'.sameKeys
      refine ⟨(final, .io), rfl, spill'.complete, none, ⟨hkeeps.sound.complete, hkeeps.phase, ?_,
        hsettled', hsame⟩, fun _ _ => (by simp), ?_⟩
      · rw [State.complete, hspill']
        rfl
      · have hleft : ∀ y : SpillState, (cfg.place y key = some .onDiskWithoutOffset ∨
            cfg.place y key = some .sharedByDifferentKeys) → ∀ p,
            y.partitions (y.partitioning.index (cfg.hash key)) = some p →
            p.isLoaded = false → cfg.readsLeft y key = p.unread := by
          intro y hother p hp hp'
          rcases hother with hother | hother <;>
            rw [readsLeft, hother] <;> dsimp only <;> rw [hp] <;> simp [hp']
        rw [hleft spill hplace q hq hld,
          hleft spill'.complete (by rw [place, hsame.partitioning, hsame.places]; exact hplace) _
            (by rw [hsame.partitioning]; exact hcompleted)
            (by rw [isLoaded, (completeRead_frame _).1, ht']; rfl)]
        rw [unread, if_pos hreadComplete, (completeRead_frame _).2.1, (completeRead_frame _).2.2]
        omega

/-- Whether a key that is not in the buffer is on disk. -/
theorem hasSpilledDup_spec (hreadFor : ReadFor cfg key reading spill) :
    ∃ result, hasSpilledDup cfg env state spill key (spill.distinctKeyPlaces
        (cfg.partition spill key) (cfg.hash key)) = .ok result ∧
      LookupOutcome cfg keys key state spill result := by
  have hsettled := hinv.spilled spill hspill
  obtain ⟨c, hholds⟩ := hsettled.holds
  have hplaced := hholds.places (cfg.partition spill key) (cfg.hash key)
  have hunread : (∀ offset len, cfg.place spill key ≠ some (.onDisk offset len)) → reading = none := by
    intro hne
    cases hreading : reading with
    | none => rfl
    | some place => exact absurd (hreadFor place.1 place.2 hreading) (hne _ _)
  have habsent : withHash (cfg.hash key) (c (cfg.partition spill key)).flatten = [] →
      cfg.known keys key = false := by
    intro hnil
    rw [hholds.known_eq, hbuffer, ← hasKey_withHash, hnil]
    rfl
  have hself : reading = none → Keeping cfg keys none state spill state spill := by
    rintro rfl
    exact ⟨hinv.sound, rfl, hspill, hsettled, ⟨rfl, rfl, rfl⟩⟩
  have hfold : (spill.distinctKeyPlaces (cfg.partition spill key)
      (cfg.hash key)).map get = cfg.place spill key := rfl
  unfold hasSpilledDup
  rw [hfold] at hplaced ⊢
  cases hplace : cfg.place spill key with
  | none =>
    rw [hplace] at hplaced hunread
    exact ⟨_, rfl, (habsent hplaced.1).symm, spill, hself (hunread nofun)⟩
  | some place =>
    rw [hplace] at hplaced hunread
    cases place with
    | inBuffer => exact ⟨_, rfl, (habsent hplaced.1).symm, spill, hself (hunread nofun)⟩
    | onDisk offset len => exact spilledKeyEquals_spec hbuffer hinv hspill hreadFor hplace
    | onDiskWithoutOffset =>
      exact spilledPartitionHasKey_spec hbuffer hinv hspill (hunread nofun) (.inl hplace)
    | sharedByDifferentKeys =>
      exact spilledPartitionHasKey_spec hbuffer hinv hspill (hunread nofun) (.inr hplace)

end

end Turso.HashTable
