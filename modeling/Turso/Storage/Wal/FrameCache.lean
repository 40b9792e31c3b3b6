import Mathlib.Data.List.DropRight
import Mathlib.Order.Bounds.Basic

/-!
# The frame cache

The cache of `core/storage/wal.rs` lists for each page the frames that hold it, in ascending order.
A frame slot may be written again, after a rollback or over an append that was never rolled back, so
`cache_frame` first drops what is cached from the slot upwards.

The cache is compared with the operations that led to it.  A frame is cached for the page that was
written to its slot, until the log is rewound below it (`cachedPage`).  If no append leaves a gap,
the last page written to a slot is cached for every slot up to the current max frame
(`cachedPage_eq_lastWritten`).
-/

namespace Turso.Wal

open Option List

/-- `frame_cache` and `frame_cache_high_water` of `WalSharedRuntime`. -/
structure FrameCache where
  frames : ℕ → Option (List ℕ)
  highWater : ℕ

namespace FrameCache

/-- The cache of a log that is new or was restarted. -/
def empty : FrameCache := ⟨fun _ => none, 0⟩

/-- `retain` with the loop that pops frames off the end of each list: empty lists are removed. -/
def retain (drop : ℕ → Bool) (frames : ℕ → Option (List ℕ)) (page : ℕ) : Option (List ℕ) :=
  ((frames page).map (·.rdropWhile drop)).filter fun kept => !kept.isEmpty

variable (cache : FrameCache) (page : ℕ)

/-- `cache_frame`. -/
def cacheFrame (frame : ℕ) : FrameCache :=
  let frames := if frame ≤ cache.highWater then retain (frame ≤ ·) cache.frames else cache.frames
  let pushed :=
    match frames page with
    | some found => found ++ [frame]
    | none => [frame]
  ⟨Function.update frames page (some pushed), frame⟩

/-- `rollback_cache`. -/
def rollbackCache (maxFrame : ℕ) : FrameCache :=
  ⟨retain (maxFrame < ·) cache.frames,
    if cache.highWater > maxFrame then maxFrame else cache.highWater⟩

/-- `latest_frame_in_range`, with `partition_point` of a list in ascending order. -/
def latestFrameInRange (frames : List ℕ) (first last : ℕ) : Option ℕ :=
  let stop := (frames.takeWhile (· ≤ last)).length
  (frames.take stop).getLast?.filter fun frame => first ≤ frame ∧ frame ≤ last

/-- `find_frame`. -/
def findFrame (minFrame maxFrame : ℕ) (frameWatermark : Option ℕ) : Option ℕ :=
  let (first, last) :=
    match frameWatermark with
    | some watermark => (0, watermark)
    | none => (minFrame, maxFrame)
  (cache.frames page).bind fun frames => latestFrameInRange frames first last

/-- The frames that are cached for the page. -/
def cached : List ℕ := (cache.frames page).getD []

end FrameCache

/-! ## The operations on the cache -/

inductive CacheOperation where
  | cacheFrame (page frame : ℕ)
  | rollbackCache (maxFrame : ℕ)
  | restart

/-- The cache after the operations, of which the latest comes first. -/
def FrameCache.run : List CacheOperation → FrameCache
  | [] => empty
  | .cacheFrame page frame :: earlier => (run earlier).cacheFrame page frame
  | .rollbackCache maxFrame :: earlier => (run earlier).rollbackCache maxFrame
  | .restart :: _ => empty

/-- The last page written to the slot since the log was restarted. -/
def lastWritten (slot : ℕ) : List CacheOperation → Option ℕ
  | .cacheFrame page frame :: earlier =>
    if slot = frame then some page else lastWritten slot earlier
  | .rollbackCache _ :: earlier => lastWritten slot earlier
  | [] | .restart :: _ => none

def currentMaxFrame : List CacheOperation → ℕ
  | .cacheFrame _ frame :: _ => frame
  | .rollbackCache maxFrame :: earlier => min (currentMaxFrame earlier) maxFrame
  | [] | .restart :: _ => 0

/-- The page last written to the slot, unless the log was rewound below the slot since: by a
rollback, or by a write to a lower slot. -/
def cachedPage (slot : ℕ) : List CacheOperation → Option ℕ
  | .cacheFrame page frame :: earlier =>
    if slot = frame then some page else if slot < frame then cachedPage slot earlier else none
  | .rollbackCache maxFrame :: earlier => if slot ≤ maxFrame then cachedPage slot earlier else none
  | [] | .restart :: _ => none

/-- Every frame is written to a slot that was written before or to the one after them. -/
def NoGap : List CacheOperation → Prop
  | .cacheFrame _ frame :: earlier => frame ≤ currentMaxFrame earlier + 1 ∧ NoGap earlier
  | .rollbackCache _ :: earlier => NoGap earlier
  | [] | .restart :: _ => True

variable {operations : List CacheOperation} {slot page : ℕ}

theorem le_currentMaxFrame (h : cachedPage slot operations = some page) :
    slot ≤ currentMaxFrame operations := by
  induction operations with
  | nil => cases h
  | cons operation earlier ih =>
    cases operation with
    | cacheFrame w frame =>
      unfold cachedPage at h
      split_ifs at h with hslot hlt
      · exact hslot.le
      · exact hlt.le
    | rollbackCache maxFrame =>
      obtain ⟨hle, hcached⟩ := ite_none_right_eq_some.mp h
      exact le_min (ih hcached) hle
    | restart => cases h

theorem cachedPage_eq_lastWritten (hgap : NoGap operations) : cachedPage slot operations =
    if slot ≤ currentMaxFrame operations then lastWritten slot operations else none := by
  induction operations with
  | nil => simp [cachedPage, lastWritten]
  | cons operation earlier ih =>
    cases operation with
    | cacheFrame w frame =>
      obtain ⟨hframe, hgap⟩ := hgap
      simp only [cachedPage, currentMaxFrame, lastWritten, ih hgap]
      split_ifs <;> first | rfl | omega
    | rollbackCache maxFrame =>
      simp only [cachedPage, currentMaxFrame, lastWritten, ih hgap, Nat.le_min]
      split_ifs <;> first | rfl | omega
    | restart => simp [cachedPage, lastWritten]

/-! ## Lists in ascending order -/

variable {frames : List ℕ} {drop : ℕ → Bool}

/-- What is popped off the end are the frames that are to be dropped. -/
theorem rdropWhile_eq_filter (hdrop : ∀ {a b}, a < b → drop a → drop b)
    (hsorted : frames.Pairwise (· < ·)) : frames.rdropWhile drop = frames.filter (!drop ·) := by
  induction frames using reverseRecOn with
  | nil => simp
  | append_singleton frames frame ih =>
    obtain ⟨hsorted, -, hlt⟩ := pairwise_append.mp hsorted
    rw [rdropWhile_concat, filter_append]
    split
    next hframe => simp [ih hsorted, hframe]
    next hframe =>
      have hkept : ∀ x ∈ frames, (!drop x) = true := by
        intro x hm
        cases hx : drop x
        · rfl
        · exact absurd (hdrop (hlt x hm frame (by simp)) hx) hframe
      simp [filter_eq_self.mpr hkept, hframe]

theorem getLast?_eq_some_iff_isGreatest (hsorted : frames.Pairwise (· < ·))
    {frame : ℕ} : frames.getLast? = some frame ↔ IsGreatest {found | found ∈ frames} frame := by
  induction frames using reverseRecOn with
  | nil => exact ⟨nofun, fun h => absurd h.1 not_mem_nil⟩
  | append_singleton frames last =>
    obtain ⟨-, -, hlt⟩ := pairwise_append.mp hsorted
    have hgreatest : IsGreatest {found | found ∈ frames ++ [last]} last := by
      refine ⟨mem_append_right _ (mem_singleton_self _), fun found hf => ?_⟩
      obtain hmem | hmem := mem_append.mp hf
      · exact (hlt found hmem last (by simp)).le
      · exact (mem_singleton.mp hmem).le
    rw [getLast?_concat, some_inj]
    constructor
    · rintro rfl
      exact hgreatest
    · exact IsGreatest.unique hgreatest

theorem FrameCache.latestFrameInRange_eq_some (hsorted : frames.Pairwise (· < ·))
    {a last frame : ℕ} : latestFrameInRange frames a last = some frame ↔
      IsGreatest {found | found ∈ Set.Icc a last ∧ found ∈ frames} frame := by
  have htake : ∀ (frames : List ℕ), frames.Pairwise (· < ·) →
      frames.takeWhile (· ≤ last) = frames.filter (· ≤ last) := by
    intro frames hsorted
    induction hsorted with
    | nil => rfl
    | @cons head tail hhead _ ih =>
      by_cases hlast : head ≤ last
      · simp [hlast, ih]
      · have hno : ∀ found ∈ tail, ¬ found ≤ last := by
          intro found hm hle
          exact hlast ((hhead found hm).le.trans hle)
        simpa [hlast] using hno
  have hprefix : frames.take (frames.takeWhile (· ≤ last)).length = frames.filter (· ≤ last) := by
    rw [← htake frames hsorted, ← prefix_iff_eq_take.mp ( takeWhile_prefix _)]
  simp only [latestFrameInRange, hprefix, filter_eq_some_iff, decide_eq_true_eq,
    getLast?_eq_some_iff_isGreatest (hsorted.filter _)]
  constructor
  · rintro ⟨⟨hm, hgreatest⟩, hrange⟩
    refine ⟨⟨hrange, (mem_filter.mp hm).1⟩, fun found ⟨hf, hm⟩ => hgreatest ?_⟩
    exact mem_filter.mpr ⟨hm, by simpa using hf.2⟩
  · rintro ⟨⟨hrange, hm⟩, hgreatest⟩
    refine ⟨⟨mem_filter.mpr ⟨hm, by simpa using hrange.2⟩, fun found hf => ?_⟩, hrange⟩
    obtain ⟨hf, hle⟩ := mem_filter.mp hf
    by_cases ha : a ≤ found
    · exact hgreatest ⟨⟨ha, by simpa using hle⟩, hf⟩
    · exact (not_le.mp ha).le.trans hrange.1

/-! ## The cache after every sequence of operations -/

/-- The cache lists, in ascending order, the frames that are still there. -/
structure FrameCache.Lists (cache : FrameCache) (operations : List CacheOperation) : Prop where
  sorted : ∀ page, (cache.cached page).Pairwise (· < ·)
  mem_iff : ∀ {page slot}, slot ∈ cache.cached page ↔ cachedPage slot operations = some page
  highWater : cache.highWater = currentMaxFrame operations

theorem FrameCache.cached_retain (hdrop : ∀ {a b}, a < b → drop a → drop b)
    {frames : ℕ → Option (List ℕ)} (hsorted : ((frames page).getD []).Pairwise (· < ·)) :
    (retain drop frames page).getD [] = ((frames page).getD []).filter (!drop ·) := by
  unfold retain
  cases hp : frames page with
  | none => rfl
  | some found =>
    rw [hp, getD_some] at hsorted
    rw [map_some, rdropWhile_eq_filter hdrop hsorted, getD_some]
    cases found.filter (!drop ·) <;> rfl

theorem FrameCache.Lists.rollbackCache {cache : FrameCache} (h : cache.Lists operations)
    (maxFrame : ℕ) :
    (cache.rollbackCache maxFrame).Lists (.rollbackCache maxFrame :: operations) := by
  have hcached : ∀ p, (cache.rollbackCache maxFrame).cached p =
      (cache.cached p).filter fun slot => !decide (maxFrame < slot) := fun p =>
    cached_retain (by grind) (h.sorted p)
  refine ⟨fun p => ?_, fun {p slot} => ?_, ?_⟩
  · rw [hcached]
    exact (h.sorted p).filter _
  · rw [hcached, mem_filter, h.mem_iff, cachedPage, ite_none_right_eq_some, and_comm]
    simp
  · simp only [FrameCache.rollbackCache, h.highWater, currentMaxFrame]
    split <;> omega

theorem FrameCache.Lists.cacheFrame {cache : FrameCache} (h : cache.Lists operations)
    (p frame : ℕ) :
    (cache.cacheFrame p frame).Lists (.cacheFrame p frame :: operations) := by
  -- whether or not something is dropped, the frames below the new one stay
  have hkept : ∀ x, ((if frame ≤ cache.highWater then retain (frame ≤ ·) cache.frames
      else cache.frames) x).getD [] =
        (cache.cached x).filter fun slot => !decide (frame ≤ slot) := by
    intro x
    split
    next => exact cached_retain (by grind) (h.sorted x)
    next hfresh =>
      refine (filter_eq_self.mpr fun slot hm => ?_).symm
      have hle := le_currentMaxFrame (h.mem_iff.mp hm)
      rw [← h.highWater] at hle
      simpa using hle.trans_lt (not_le.mp hfresh)
  have hcached : ∀ x, (cache.cacheFrame p frame).cached x =
      ((cache.cached x).filter fun slot => !decide (frame ≤ slot)) ++
        if x = p then [frame] else [] := by
    intro x
    rw [← hkept x]
    simp only [FrameCache.cacheFrame, cached]
    generalize (if frame ≤ cache.highWater then retain (frame ≤ ·) cache.frames
      else cache.frames) = frames
    by_cases hx : x = p
    · subst hx
      cases frames x <;> simp
    · simp [hx]
  refine ⟨fun x => ?_, fun {x slot} => ?_, rfl⟩
  · rw [hcached, pairwise_append]
    refine ⟨(h.sorted x).filter _, by split <;> simp, fun slot hslot last hlast => ?_⟩
    split at hlast
    · rw [mem_singleton.mp hlast]
      simpa using (mem_filter.mp hslot).2
    · cases hlast
  · rw [hcached, mem_append, mem_filter, h.mem_iff, cachedPage]
    split_ifs <;> grind

theorem FrameCache.lists_run (operations : List CacheOperation) :
    (run operations).Lists operations := by
  have hempty : ∀ {operations}, currentMaxFrame operations = 0 →
      (∀ slot, cachedPage slot operations = none) → empty.Lists operations := by
    intro operations hmax hno
    exact ⟨fun _ => .nil, by simp [empty, cached, hno], hmax.symm⟩
  induction operations with
  | nil => exact hempty rfl fun _ => rfl
  | cons operation earlier ih =>
    cases operation with
    | cacheFrame p frame => exact ih.cacheFrame p frame
    | rollbackCache maxFrame => exact ih.rollbackCache maxFrame
    | restart => exact hempty rfl fun _ => rfl

/-- The lists of the cache are in ascending order and hold, for each page, the frames that were
written for it and not rewound since; if appends leave no gap, these are the slots up to the current
max frame to which the page was written last.  A lookup finds the greatest of them in its range. -/
theorem frame_cache_exact (operations : List CacheOperation) :
    (∀ page, ((FrameCache.run operations).cached page).Pairwise (· < ·)) ∧
    (∀ page slot, slot ∈ (FrameCache.run operations).cached page ↔
      cachedPage slot operations = some page) ∧
    (NoGap operations → ∀ page slot, slot ∈ (FrameCache.run operations).cached page ↔
      lastWritten slot operations = some page ∧ slot ≤ currentMaxFrame operations) ∧
    ∀ page minFrame maxFrame frame,
      (FrameCache.run operations).findFrame page minFrame maxFrame none = some frame ↔
        IsGreatest {slot | slot ∈ Set.Icc minFrame maxFrame ∧
          slot ∈ (FrameCache.run operations).cached page} frame := by
  have h := FrameCache.lists_run operations
  refine ⟨h.sorted, fun page slot => h.mem_iff, fun hgap page slot => ?_, ?_⟩
  · rw [h.mem_iff, cachedPage_eq_lastWritten hgap, Option.ite_none_right_eq_some, and_comm]
  · intro page minFrame maxFrame frame
    rw [← FrameCache.latestFrameInRange_eq_some (h.sorted page)]
    simp only [FrameCache.findFrame, FrameCache.cached]
    cases (FrameCache.run operations).frames page with
    | none => simp [FrameCache.latestFrameInRange]
    | some frames => simp

/-- A rollback and an append further on leave a slot between them that is not cached, although it
was written since the restart and lies below the max frame. -/
theorem slot_in_gap_not_cached :
    let operations := [.cacheFrame 13 3, .rollbackCache 1, .cacheFrame 11 3, .cacheFrame 9 2,
      .cacheFrame 7 1]
    lastWritten 2 operations = some 9 ∧ 2 ≤ currentMaxFrame operations ∧
      2 ∉ (FrameCache.run operations).cached 9 := by
  decide

end Turso.Wal
