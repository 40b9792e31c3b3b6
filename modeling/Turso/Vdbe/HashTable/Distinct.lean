import Turso.Vdbe.HashTable.DistinctLookup

/-!
# DISTINCT through the hash table

`insert_distinct` (`core/vdbe/hash_table.rs`) tells of every key whether it is new, for every budget, hash
function and number of partitions and however its calls yield (`distinct_exact`).  A call that yields is
made again when its IO has ended; by then there is less to be read before the key can be looked up, or
room has been made for it (`Progress`), so that the calls for a key end.
-/

namespace Turso.HashTable

open Config SpillState Function List

variable {cfg : Config} {env : Environment} {state : State} {keys : List (List Value)}
  {key : List Value} {reading : Option (ℕ × ℕ)} {spill : SpillState}
variable {seen : List (List Value)}

/-! ## A new key -/

/-- A new key goes to the buffer of its partition. -/
theorem Settled.bufferKey (hsettled : Settled cfg keys none spill) {place : Option ℕ}
    (hplace : place.isSome = (spill.distinctKeyPlaces (cfg.partition spill key)
      (cfg.hash key)).isSome) :
    ∃ spill', (bufferDistinctKey cfg state spill key place).spillState = some spill' ∧
      Settled cfg (keys ++ [key]) none spill' := by
  obtain ⟨c, hholds⟩ := hsettled.holds
  set i := cfg.partition spill key with hi
  refine ⟨_, rfl, ⟨c, hholds.partitions, hholds.absent, fun x e => ?_, fun x => ?_⟩,
    hsettled.offset, hsettled.inFlight, hsettled.ready, hsettled.read⟩
  · dsimp only
    have hes := hholds.entries x e
    by_cases hx : x = i
    · subst hx
      rw [update_self, PartitionBuffer.insert, ← append_assoc, mem_append, hes]
      simp only [mem_append, mem_singleton]
      constructor
      · rintro (⟨earlier, hearlier, he, hp⟩ | rfl)
        · exact ⟨earlier, .inl hearlier, he, hp⟩
        · exact ⟨key, .inr rfl, rfl, rfl⟩
      · rintro ⟨earlier, hearlier | rfl, he, hp⟩
        · exact .inl ⟨earlier, hearlier, he, hp⟩
        · exact .inr he.symm
    · rw [update_of_ne hx, hes]
      simp only [mem_append, mem_singleton]
      constructor
      · rintro ⟨earlier, hearlier, he, hp⟩
        exact ⟨earlier, .inl hearlier, he, hp⟩
      · rintro ⟨earlier, hearlier | rfl, he, hp⟩
        · exact ⟨earlier, hearlier, he, hp⟩
        · exact absurd hp.symm hx
  · dsimp only
    by_cases hx : x = i
    · rw [hx, update_self, update_self]
      refine (hholds.places i).insert (cfg.entry key) ?_
      rw [show (cfg.entry key).hash = cfg.hash key from rfl]
      cases hb : spill.distinctKeyPlaces i (cfg.hash key) <;> cases place <;> simp_all
    · rw [update_of_ne hx, update_of_ne hx]
      exact hholds.places x

variable (config : Config)

/-- Room for a key. -/
def Config.room (key : List Value) (state : State) : Prop :=
  ∃ spill, state.spillState = some spill ∧ HasRoom config state spill (sizeFromValues key [])

/-- The number of reads before a key can be looked up. -/
def Config.reads (key : List Value) (state : State) : ℕ :=
  (state.spillState.map fun spill => config.readsLeft spill key).getD 0

/-- What a call that yielded has brought about when it is made again. -/
def Progress (key : List Value) (before after : State) : Prop :=
  (config.reads key after < config.reads key before ∧
      (config.room key before → config.room key after)) ∨
    (¬config.room key before ∧ config.room key after)

/-- What a call leads to. -/
def CallOutcome (keys : List (List Value)) (key : List Value) (before : State) :
    State × IOResult Bool → Prop
  | (next, .done isNew) => isNew = !config.known keys key ∧
      Inv config (if isNew then keys ++ [key] else keys) none next
  | (next, .io) => Progress config key before next.complete ∧
      ∃ reading, Inv config keys reading next.complete ∧
        ∀ spill, next.complete.spillState = some spill → ReadFor config key reading spill

/-- A key that is not known is inserted, or room is made for it. -/
theorem insertNewDistinct_spec {place : Option ℕ} {before : State}
    (hb : cfg.room key before → cfg.room key state) (hinv : Inv cfg keys none state)
    (hspill : state.spillState = some spill) (hfits : cfg.Fits key)
    (hunknown : cfg.known keys key = false)
    (hplace : place.isSome = (spill.distinctKeyPlaces (cfg.partition spill key)
      (cfg.hash key)).isSome) :
    ∃ result, insertNewDistinct cfg env state key place = .ok result ∧
      CallOutcome cfg keys key before result := by
  have hsettled := hinv.spilled spill hspill
  have hbuffered : ∀ {next : State} {spill' : SpillState}, Keeps True state next →
      next.spillState = some spill' → Settled cfg keys none spill' →
      place.isSome = (spill'.distinctKeyPlaces (cfg.partition spill' key) (cfg.hash key)).isSome →
      CallOutcome cfg keys key before
        (bufferDistinctKey cfg next spill' key place, .done true) := by
    intro next spill' hkeeps hspill' hsettled' hplace'
    obtain ⟨spill'', hspill'', hsettled''⟩ := @Settled.bufferKey cfg next _ _ _ hsettled' _ hplace'
    have hkeeps' : Keeps True state (bufferDistinctKey cfg next spill' key place) :=
      hkeeps.trans (keeps_bufferEntry hkeeps.sound hspill' (spill'.partitioning.index_lt _)
        (cfg.entry key) _ _)
    refine ⟨by rw [hunknown]; rfl, inv_of_spilled hkeeps'.sound ?_ ?_ hspill'' hsettled''⟩
    · exact hkeeps'.phase ▸ hinv.insertable
    · exact forall_mem_append.2 ⟨hinv.fits, forall_mem_singleton.2 hfits⟩
  unfold insertNewDistinct
  rw [hspill]
  dsimp only
  rcases @spillPartitionsForEntry_spec cfg env state keys spill (sizeFromValues key []) hinv.sound
    hspill hinv.insertable hsettled hinv.fits with
    ⟨-, hnext⟩ | ⟨hroom, next, finished, indices, hnext, houtcome, hroom'⟩
  · rw [hnext]
    simp only [bind, Except.bind, hspill]
    exact ⟨_, rfl, hbuffered (Keeps.refl hinv.sound) hspill hsettled hplace⟩
  · have hkeeps := keeps_spillPartitionsForEntry hinv.sound hspill hinv.insertable hnext
    obtain ⟨-, spill', hspill', hsettled', hpartitioning, -, hsome⟩ := houtcome
    rw [hnext]
    simp only [bind, Except.bind]
    cases finished with
    | true =>
      change next.spillState = some spill' at hspill'
      dsimp only
      rw [hspill']
      refine ⟨_, rfl, hbuffered hkeeps hspill' hsettled' ?_⟩
      rw [Config.partition, hpartitioning, hsome]
      exact hplace
    | false =>
      refine ⟨_, rfl, .inr ⟨?_, spill', hspill', hroom' spill' hspill'⟩, none,
        inv_of_spilled hkeeps.sound.complete ?_ hinv.fits hspill' hsettled', fun _ _ => nofun⟩
      · intro hroom''
        obtain ⟨spill'', hspill'', hroom''⟩ := hb hroom''
        rw [hspill] at hspill''
        cases hspill''
        exact hroom hroom''
      · exact hkeeps.phase ▸ hinv.insertable

/-! ## Calls -/

/-- Room depends on the buffers only. -/
theorem Keeping.room {reading' : Option (ℕ × ℕ)} {next : State} {sp' : SpillState}
    (hinv : Inv cfg keys reading state) (hsp : state.spillState = some spill)
    (hkeeping : Keeping cfg keys reading' state spill next sp') :
    cfg.room key state → cfg.room key next := by
  have hmemUsed : ∀ {x : State} {otherSpill : SpillState}, Sound x →
      x.phase.insertable = true → x.spillState = some otherSpill →
      x.memUsed = otherSpill.bufferedSize := by
    intro x otherSpill hsound hinsertable hx
    rw [hsound.accounts.memUsed_eq hx, (hsound.noneKept hx hinsertable).inMemorySize_eq,
      Nat.add_zero]
  have hsame : sp'.bufferedSize = spill.bufferedSize := by
    rw [bufferedSize, bufferedSize, hkeeping.same.partitioning,
      hkeeping.same.buffers]
  have hnx := hmemUsed hkeeping.sound (hkeeping.phase ▸ hinv.insertable) hkeeping.spilled
  rw [hsame, ← hmemUsed hinv.sound hinv.insertable hsp] at hnx
  rintro ⟨x, hx, hroom⟩
  rw [hsp] at hx
  cases hx
  refine ⟨sp', hkeeping.spilled, ?_⟩
  rw [HasRoom, hnx, hkeeping.same.buffers]
  exact hroom

/-- `insert_distinct` of a table that has spilled. -/
theorem insertDistinctSpilled_spec (hinv : Inv cfg keys reading state)
    (hspill : state.spillState = some spill) (hreadFor : ReadFor cfg key reading spill)
    (hfits : cfg.Fits key) :
    ∃ result, insertDistinctSpilled cfg env state spill key = .ok result ∧
      CallOutcome cfg keys key state result := by
  have hsettled := hinv.spilled spill hspill
  obtain ⟨c, hholds⟩ := hsettled.holds
  unfold insertDistinctSpilled
  dsimp only
  by_cases hbuffer : cfg.hasKey
      (spill.partitionBuffers (cfg.partition spill key)).entries key = true
  · have hknown : cfg.known keys key = true := by
      rw [hholds.known_eq, hbuffer, Bool.true_or]
    have hreading : reading = none := by
      cases hreading : reading with
      | none => rfl
      | some place =>
        -- A key at an offset is not in the buffer.
        have hplaced := hholds.places (cfg.partition spill key) (cfg.hash key)
        have hplace := hreadFor place.1 place.2 hreading
        rw [Config.place] at hplace
        rw [hplace] at hplaced
        obtain ⟨_, -, hnil, -⟩ := hplaced
        rw [← hasKey_withHash, hnil] at hbuffer
        cases hbuffer
    rw [if_pos hbuffer]
    refine ⟨_, rfl, by rw [hknown]; rfl, ?_⟩
    exact hreading ▸ hinv
  rw [if_neg hbuffer]
  rw [Bool.not_eq_true] at hbuffer
  obtain ⟨⟨next, result⟩, hdup, houtcome⟩ :=
    hasSpilledDup_spec hbuffer hinv hspill hreadFor
  rw [hdup]
  cases result with
  | io =>
    obtain ⟨spill', reading', hkeeping, hreadFor', hless⟩ := houtcome
    refine ⟨_, rfl, .inl ⟨?_, hkeeping.room hinv hspill⟩, reading',
      inv_of_spilled hkeeping.sound (hkeeping.phase ▸ hinv.insertable) hinv.fits hkeeping.spilled
        hkeeping.settled, fun x hx => ?_⟩
    · rw [reads, reads, hkeeping.spilled, hspill]
      exact hless
    · rw [hkeeping.spilled] at hx
      cases hx
      exact hreadFor'
  | done found =>
    obtain ⟨hf, spill', hkeeping⟩ := houtcome
    have hinv' := inv_of_spilled hkeeping.sound (hkeeping.phase ▸ hinv.insertable) hinv.fits
      hkeeping.spilled hkeeping.settled
    cases found with
    | true => exact ⟨_, rfl, by rw [← hf]; rfl, hinv'⟩
    | false =>
      refine insertNewDistinct_spec (hkeeping.room hinv hspill) hinv' hkeeping.spilled hfits
        hf.symm ?_
      rw [Config.partition, hkeeping.same.partitioning, hkeeping.same.places]

/-! ## The first spill -/

/-- The entries of a table go to the buffers of their partitions. -/
theorem mem_redistributeToPartitions (sp : SpillState) (buckets : Buckets) :
    ∃ buffers, redistributeToPartitions sp buckets = { sp with partitionBuffers := buffers } ∧
      ∀ i e, e ∈ (buffers i).entries ↔ e ∈ (sp.partitionBuffers i).entries ∨
          (e ∈ buckets.flatten ∧ sp.partitioning.index e.hash = i) := by
  rw [redistributeToPartitions]
  induction buckets.flatten generalizing sp with
  | nil => exact ⟨sp.partitionBuffers, rfl, by simp⟩
  | cons a es ih =>
    obtain ⟨buffers, hbuffers, hm⟩ := ih { sp with
      partitionBuffers := update sp.partitionBuffers (sp.partitioning.index a.hash)
        ((sp.partitionBuffers (sp.partitioning.index a.hash)).insert a) }
    refine ⟨buffers, hbuffers, fun i e => ?_⟩
    rw [hm]
    dsimp only
    by_cases hi : i = sp.partitioning.index a.hash
    · subst hi
      rw [update_self, PartitionBuffer.insert]
      simp only [mem_append, mem_cons, not_mem_nil, or_false]
      constructor
      · rintro ((hentry | rfl) | ⟨hentry, hsame⟩)
        · exact .inl hentry
        · exact .inr ⟨.inl rfl, rfl⟩
        · exact .inr ⟨.inr hentry, hsame⟩
      · rintro (hentry | ⟨rfl | hentry, hsame⟩)
        · exact .inl (.inl hentry)
        · exact .inl (.inr rfl)
        · exact .inr ⟨hentry, hsame⟩
    · rw [update_of_ne hi]
      simp only [mem_cons]
      constructor
      · rintro (hentry | ⟨hentry, hsame⟩)
        · exact .inl hentry
        · exact .inr ⟨.inr hentry, hsame⟩
      · rintro (hentry | ⟨rfl | hentry, hsame⟩)
        · exact .inl hentry
        · exact absurd hsame.symm hi
        · exact .inr ⟨hentry, hsame⟩

/-- The places of the keys of a buffer. -/
theorem placesHold_recordPlaces {places : Places} {buffer : List HashEntry} {file : Bytes}
    (hplaces : PlacesHold file places [] buffer) (es : List HashEntry) :
    PlacesHold file (recordPlaces places es) [] (buffer ++ es) := by
  induction es generalizing places buffer with
  | nil => simpa [recordPlaces] using hplaces
  | cons e es ih =>
    have hinsert := hplaces.insert e rfl
    have hrest := ih hinsert
    rw [append_assoc] at hrest
    exact hrest

/-- The table begins to spill. -/
theorem settled_startSpill {n : ℕ} (hn : 0 < n) (partitioning : Partitioning) :
    Settled cfg keys none (recordDistinctKeyPlaces
      (redistributeToPartitions (.new partitioning) (fill n (keys.map cfg.entry)))) := by
  obtain ⟨buffers, hbuffers, hm⟩ := mem_redistributeToPartitions (.new partitioning)
    (fill n (keys.map cfg.entry))
  rw [hbuffers]
  refine ⟨⟨fun _ => [], nofun, fun _ _ => rfl, fun i e => ?_, fun i => ?_⟩, rfl, rfl, nofun,
    rfl⟩
  · change e ∈ [] ++ (buffers i).entries ↔ _
    rw [nil_append, hm, (flatten_fill hn _).mem_iff, mem_map]
    simp only [new, PartitionBuffer.empty, not_mem_nil, false_or]
    constructor
    · rintro ⟨⟨earlier, hearlier, rfl⟩, hi⟩
      exact ⟨earlier, hearlier, rfl, hi⟩
    · rintro ⟨earlier, hearlier, rfl, hi⟩
      exact ⟨⟨earlier, hearlier, rfl⟩, hi⟩
  · have hempty : PlacesHold [] (fun _ => none) [] [] := fun _ => ⟨rfl, rfl⟩
    exact placesHold_recordPlaces hempty (buffers i).entries

/-- A partition without chunks is not read. -/
theorem Settled.readsLeft_eq_zero (hsettled : Settled cfg keys reading spill)
    (hno : spill.partitions (cfg.partition spill key) = none) :
    cfg.readsLeft spill key = 0 := by
  obtain ⟨c, hholds⟩ := hsettled.holds
  have hplaced := hholds.places (cfg.partition spill key) (cfg.hash key)
  rw [hholds.absent _ hno, show (spill.distinctKeyPlaces _ _).map PackedDistinctKeyPlace.get =
    cfg.place spill key from rfl] at hplaced
  rw [readsLeft]
  cases hplace : cfg.place spill key with
  | none => rfl
  | some place =>
    rw [hplace] at hplaced
    cases place with
    | inBuffer => rfl
    | onDisk offset len =>
      obtain ⟨_, hdisk, -⟩ := hplaced
      cases hdisk
    | onDiskWithoutOffset | sharedByDifferentKeys =>
      rw [hno]

theorem insertDistinct_spec (hinv : Inv cfg keys reading state)
    (hreadFor : ∀ spill, state.spillState = some spill → ReadFor cfg key reading spill)
    (hfits : cfg.Fits key) :
    ∃ result, insertDistinct cfg env state key = .ok result ∧
      CallOutcome cfg keys key state result := by
  unfold insertDistinct
  rw [if_neg (by simp [hinv.insertable])]
  cases hspill : state.spillState with
  | some spill => exact insertDistinctSpilled_spec hinv hspill (hreadFor spill hspill) hfits
  | none =>
    obtain ⟨rfl, n, hn, hbuckets⟩ := hinv.unspilled hspill
    have hknown : cfg.hasKey (state.buckets.getD
        (bucketIndex state.buckets.length (cfg.hash key)) []) key = cfg.known keys key := by
      rw [hbuckets, length_fill, hasKey_fill hn, hasKey_map_entry]
    dsimp only
    rw [hknown]
    by_cases hdup : cfg.known keys key = true
    · rw [if_pos hdup]
      exact ⟨_, rfl, by rw [hdup]; rfl, hinv⟩
    rw [if_neg hdup]
    rw [Bool.not_eq_true] at hdup
    split_ifs
    · set partitioning := choosePartitioning cfg state (sizeFromValues key [])
      set spill := recordDistinctKeyPlaces
        (redistributeToPartitions (.new partitioning) state.buckets) with hspill'
      have hsettled : Settled cfg keys none spill := by
        rw [hspill', hbuckets]
        exact settled_startSpill hn partitioning
      obtain ⟨hstarted, -, hno⟩ :=
        @sound_startSpill _ spill partitioning _ hinv.sound hspill rfl
      have hinv' : Inv cfg keys none (startSpill state spill) :=
        inv_of_spilled hstarted rfl hinv.fits rfl hsettled
      obtain ⟨⟨next, result⟩, hresult, houtcome⟩ :=
        @insertDistinctSpilled_spec cfg env _ keys key none spill hinv' rfl nofun hfits
      refine ⟨(next, result), hresult, ?_⟩
      cases result with
      | done isNew => exact houtcome
      | io =>
        refine ⟨.inr ⟨?_, ?_⟩, houtcome.2⟩
        · rintro ⟨x, hother, -⟩
          rw [hspill] at hother
          cases hother
        · rcases houtcome.1 with ⟨hless, -⟩ | ⟨-, hroom⟩
          · have hzero : cfg.reads key (startSpill state spill) = 0 :=
              hsettled.readsLeft_eq_zero (hno _)
            omega
          · exact hroom
    · refine ⟨_, rfl, by rw [hdup]; rfl, ?_⟩
      have hkeeps := keeps_bucketEntry hinv.sound hspill (ne_closed_of_insertable hinv.insertable)
        (cfg.entry key)
      refine ⟨hkeeps.sound, hinv.insertable, ?_, fun _ => ⟨rfl, n, hn, ?_⟩, fun x hother => ?_⟩
      · rw [if_pos rfl]
        exact forall_mem_append.2 ⟨hinv.fits, forall_mem_singleton.2 hfits⟩
      · rw [if_pos rfl, map_append, fill_append, ← hbuckets]
        rfl
      · change state.spillState = some x at hother
        rw [hspill] at hother
        cases hother

/-! ## Calls until the key is inserted -/

/-- `insert_distinct` is called again when its IO has ended, a bounded number of times. -/
def insertUntilDone (config : Config) (env : Environment) (key : List Value) :
    ℕ → State → Except LimboError (State × Option Bool)
  | 0, state => .ok (state, none)
  | calls + 1, state => do
    match ← insertDistinct config env state key with
    | (state, .done isNew) => .ok (state, some isNew)
    | (state, .io) => insertUntilDone config env key calls state.complete

/-- With enough calls the key is inserted. -/
def Inserts (env : Environment) (keys : List (List Value)) (key : List Value) (state : State) :
    Prop :=
  ∃ bound final, Inv config (if config.known keys key then keys else keys ++ [key]) none final ∧
    ∀ calls ≥ bound, insertUntilDone config env key calls state =
      .ok (final, some !config.known keys key)

section
variable (hinv : Inv cfg keys reading state)
  (hreadFor : ∀ spill, state.spillState = some spill → ReadFor cfg key reading spill)
  (hfits : cfg.Fits key)
include hinv hreadFor hfits

theorem inserts_of_call
    (hagain : ∀ next reading', Progress cfg key state next → Inv cfg keys reading' next →
      (∀ spill, next.spillState = some spill → ReadFor cfg key reading' spill) →
      Inserts cfg env keys key next) : Inserts cfg env keys key state := by
  obtain ⟨⟨next, result⟩, hcall, houtcome⟩ := @insertDistinct_spec cfg env _ _ _ _ hinv hreadFor hfits
  cases result with
  | done isNew =>
    obtain ⟨rfl, hinv'⟩ := houtcome
    refine ⟨1, next, ?_, fun calls hcalls => ?_⟩
    · cases hknown : cfg.known keys key <;> rw [hknown] at hinv' <;> exact hinv'
    · obtain ⟨calls, rfl⟩ := Nat.exists_eq_add_of_le' hcalls
      rw [insertUntilDone, hcall]
      rfl
  | io =>
    obtain ⟨hprogress, reading', hinv', hreadFor'⟩ := houtcome
    obtain ⟨bound, final, hfinal, hcalls⟩ := hagain next.complete reading' hprogress hinv' hreadFor'
    refine ⟨bound + 1, final, hfinal, fun calls hbound => ?_⟩
    obtain ⟨calls, rfl⟩ : ∃ rest, calls = rest + 1 := ⟨calls - 1, by omega⟩
    rw [insertUntilDone, hcall]
    exact hcalls calls (by omega)

/-- The calls for a key end.  The induction is on what is left to be read, first where there is room for
the key, since a call that makes room may add to what is left. -/
theorem inserts : Inserts cfg env keys key state := by
  have hroomy : ∀ reads state reading, cfg.reads key state = reads → cfg.room key state →
      Inv cfg keys reading state →
      (∀ sp, state.spillState = some sp → ReadFor cfg key reading sp) →
      Inserts cfg env keys key state := by
    intro reads
    induction reads using Nat.strong_induction_on with
    | _ reads ih =>
      intro state reading hreads hroom hinv hreadFor
      refine inserts_of_call hinv hreadFor hfits fun next reading' hprogress hinv' hreadFor' => ?_
      rcases hprogress with ⟨hless, hroom'⟩ | ⟨hnot, -⟩
      · exact ih _ (hreads ▸ hless) next reading' rfl (hroom' hroom) hinv' hreadFor'
      · exact absurd hroom hnot
  generalize hreads : cfg.reads key state = reads
  induction reads using Nat.strong_induction_on generalizing state reading with
  | _ reads ih =>
    refine inserts_of_call hinv hreadFor hfits fun next reading' hprogress hinv' hreadFor' => ?_
    rcases hprogress with ⟨hless, -⟩ | ⟨-, hroom⟩
    · exact ih _ (hreads ▸ hless) hinv' hreadFor' rfl
    · exact hroomy _ next reading' rfl hroom hinv' hreadFor'

end

/-! ## Clearing -/

theorem inv_clear (hinv : Inv cfg keys none state) : Inv cfg [] none (clear cfg state) := by
  have hopen := ne_closed_of_insertable hinv.insertable
  have hsound := (@sound_clear cfg _ hinv.sound hopen).1
  obtain ⟨hno, hphase, hn⟩ : (clear cfg state).spillState = none ∧
      (clear cfg state).phase = .building ∧ (clear cfg state).numEntries = 0 := by
    unfold clear
    cases hsp : state.spillState with
    | some sp => exact ⟨rfl, rfl, rfl⟩
    | none =>
      split_ifs <;> exact ⟨rfl, rfl, rfl⟩
  refine ⟨hsound, by rw [hphase]; rfl, by simp, fun _ => ⟨rfl, ?_⟩, fun sp hsp => ?_⟩
  · obtain ⟨-, -, hempty, hbuckets⟩ := hsound.accounts.unspilled hno
    have hmemUsed := hsound.accounts.memUsed
    rw [hempty hn, State.heldSize, hno, partitionBucketMem_eq] at hmemUsed
    have hflatten := eq_nil_of_bucketSize (by simpa using hmemUsed.symm)
    refine ⟨_, length_pos_of_ne_nil (hbuckets (by simp [hphase])), ?_⟩
    exact eq_replicate_iff.2 ⟨rfl, flatten_eq_nil_iff.1 hflatten⟩
  · rw [hno] at hsp
    cases hsp

/-! ## Sequences of requests -/

/-- What a caller asks of a table for DISTINCT. -/
inductive Request where
  | insert (key : List Value)
  | clear

/-- The answers to the insertions of a sequence of requests. -/
def answers (config : Config) (env : Environment) (calls : ℕ) :
    List Request → State → Except LimboError (List (Option Bool))
  | [], _ => .ok []
  | .clear :: requests, state => answers config env calls requests (clear config state)
  | .insert key :: requests, state => do
    let (state, isNew) ← insertUntilDone config env key calls state
    let rest ← answers config env calls requests state
    .ok (isNew :: rest)

/-- The answers that are right: a key is new if it is not equal to one that was inserted before it
since the last time the table was cleared. -/
def expected (config : Config) : List (List Value) → List Request → List Bool
  | _, [] => []
  | _, .clear :: requests => expected config [] requests
  | seen, .insert key :: requests =>
    (!config.known seen key) :: expected config (seen ++ [key]) requests

/-- The table has for every key that was inserted an equal one. -/
def Represents (keys seen : List (List Value)) : Prop :=
  (∀ key ∈ keys, key ∈ seen) ∧ ∀ key ∈ seen, config.known keys key = true

theorem Represents.known_eq (hrepresents : Represents cfg keys seen) :
    cfg.known keys key = cfg.known seen key := by
  rw [Bool.eq_iff_iff, known, known, any_eq_true, any_eq_true]
  constructor
  · rintro ⟨earlier, hearlier, hequal⟩
    exact ⟨earlier, hrepresents.1 earlier hearlier, hequal⟩
  · rintro ⟨earlier, hearlier, hequal⟩
    obtain ⟨stored, hstored, hequal'⟩ := any_eq_true.1 (hrepresents.2 earlier hearlier)
    exact ⟨stored, hstored, keysEqualDistinct_trans hequal' hequal⟩

theorem Represents.insert (hrepresents : Represents cfg keys seen) :
    Represents cfg (if cfg.known keys key then keys else keys ++ [key]) (seen ++ [key]) := by
  cases hknown : cfg.known keys key with
  | true =>
    refine ⟨fun x hother => mem_append_left _ (hrepresents.1 x hother), ?_⟩
    exact forall_mem_append.2 ⟨hrepresents.2, forall_mem_singleton.2 hknown⟩
  | false =>
    refine ⟨fun x hother => ?_, fun x hother => ?_⟩
    · rcases mem_append.1 hother with hother | hother
      · exact mem_append_left _ (hrepresents.1 x hother)
      · exact mem_append_right _ hother
    · rw [if_neg Bool.false_ne_true, known, any_append, Bool.or_eq_true]
      rcases mem_append.1 hother with hother | hother
      · exact .inl (hrepresents.2 x hother)
      · rw [mem_singleton.1 hother]
        exact .inr (by simpa [equal] using keysEqualDistinct_refl cfg.collations key)

theorem answers_eq {requests : List Request}
    (hfits : ∀ key, .insert key ∈ requests → cfg.Fits key) (hinv : Inv cfg keys none state)
    (hrepresents : Represents cfg keys seen) :
    ∃ bound, ∀ calls ≥ bound, answers cfg env calls requests state =
      .ok ((expected cfg seen requests).map some) := by
  induction requests generalizing keys seen state with
  | nil => exact ⟨0, fun _ _ => rfl⟩
  | cons request requests ih =>
    have hrest := fun key h => hfits key (mem_cons_of_mem _ h)
    cases request with
    | clear => exact ih hrest (inv_clear hinv) ⟨nofun, nofun⟩
    | insert key =>
      obtain ⟨bound, final, hfinal, hcalls⟩ := @inserts cfg env _ _ _ _ hinv (fun _ _ => nofun)
        (hfits key mem_cons_self)
      obtain ⟨bound', hans⟩ := ih hrest hfinal hrepresents.insert
      refine ⟨max bound bound', fun calls hbound => ?_⟩
      rw [answers, hcalls calls (le_trans (le_max_left _ _) hbound)]
      simp only [bind, Except.bind]
      rw [hans calls (le_trans (le_max_right _ _) hbound), hrepresents.known_eq]
      rfl

theorem inv_new (cfg : Config) : Inv cfg [] none (.new cfg) :=
  ⟨(sound_new cfg).1, rfl, nofun,
    fun _ => ⟨rfl, cfg.initialBuckets, cfg.initialBuckets_pos, rfl⟩, nofun⟩

/-- `insert_distinct` answers that a key is new exactly for the keys that are not equal to one inserted
before, since the table was made or cleared: for every budget, hash function, number of partitions and
collations, and however IO ends, if the calls that yield are made again often enough. -/
theorem distinct_exact (config : Config) (env : Environment) (requests : List Request)
    (hfits : ∀ key, .insert key ∈ requests → config.Fits key) :
    ∃ bound, ∀ calls ≥ bound, answers config env calls requests (.new config) =
      .ok ((expected config [] requests).map some) :=
  answers_eq hfits (inv_new config) ⟨nofun, nofun⟩

/-- A table in which all hashes are the same and one key fills the budget. -/
def collidingKeys : Config where
  locales := noLocales
  hasher _ := 0
  collations := [.noCase]
  initialBuckets := 4
  initialBuckets_pos := by decide
  memBudget := 20
  trackMatched := false
  partitionCount := none

theorem distinct_exact_colliding : ∃ bound, ∀ calls ≥ bound,
    answers collidingKeys (fun _ => false) calls
      [.insert [.text [97]], .insert [.text [98]], .insert [.text [65]], .clear, .insert [.text [97]]]
      (.new collidingKeys) = .ok [some true, some true, some false, some true] := by
  refine distinct_exact collidingKeys (fun _ => false)
    [.insert [.text [97]], .insert [.text [98]], .insert [.text [65]], .clear, .insert [.text [97]]] ?_
  intro key hkey
  obtain ⟨byte, rfl⟩ : ∃ byte, key = [.text [byte]] := by
    simp only [mem_cons, Request.insert.injEq, not_mem_nil, or_false, reduceCtorEq,
      false_or] at hkey
    rcases hkey with rfl | rfl | rfl | rfl <;> exact ⟨_, rfl⟩
  refine ⟨⟨?_, ?_, ?_, ?_⟩, ?_⟩
  · simp [entry]
  · simp [entry]
  · simp [entry, Value.sizeBytes]
  · simp [entry]
  · simp [entry, HashEntry.serializedSize, valuesSerializedSize, Value.serializedSize, varintLen]

end Turso.HashTable
