import Turso.Storage.Savepoint.Chain

/-!
# The pager refines the page store

Every step of the pager keeps the invariant and is a step of the page store with the
same event and response; so are whole runs (`savepoints_refine`).  Most of the work is
in two places: a page is covered by the newest savepoint whenever it is changed or
written to the log (`subjournalPageIfRequired_spec`), and a rollback leaves the contents
of the snapshot behind, whatever the cache and the log did in between
(`rollbackToSnapshot_spec`).
-/

namespace Turso.Subjournal

open Savepoint Pager Option Function List KeyedLog ByteBuffer

variable {pager pager' : Pager} {id : ℕ} {p : CachedPage} {frames : List Frame}
  {savepoint : Savepoint} {store : PageStore}

/-- A page that the cache may drop has the contents that would be read again. -/
def Coherent (pager : Pager) : Prop :=
  ∀ {id page}, pager.cache id = some page → (page.dirty → page.spilled) →
    page.contents = pager.stored id

structure Invariant (pager : Pager) (frames : List Frame) : Prop where
  coherent : Coherent pager
  journal_some : pager.savepoints ≠ [] → pager.subjournal.isSome
  size_pos : 1 ≤ databaseSize pager.contents
  chain : Chain pager.holdsWriteLock pager.savepoints frames pager.view

theorem contents_of_cached (hp : pager.cache id = some p) : pager.contents id = p.contents := by
  simp only [contents, hp]

theorem contents_of_not_cached (hp : pager.cache id = none) :
    pager.contents id = pager.stored id := by
  simp only [contents, hp]

/-- A step that the savepoints do not notice. -/
theorem Invariant.of_contents_eq (hinv : Invariant pager frames) (hcoherent : Coherent pager')
    (hc : pager'.contents = pager.contents)
    (hsavepoints : pager'.savepoints = pager.savepoints)
    (hlock : pager'.holdsWriteLock = pager.holdsWriteLock)
    (hjournal : pager'.subjournal = pager.subjournal) (hwal : pager'.wal = pager.wal) :
    Invariant pager' frames := by
  have hview : pager'.view = pager.view := by
    rw [view, view, hc, hjournal, hwal]
  refine ⟨hcoherent, ?_, hc ▸ hinv.size_pos, ?_⟩
  · rw [hsavepoints, hjournal]
    exact hinv.journal_some
  · rw [hsavepoints, hlock, hview]
    exact hinv.chain

/-- The newest savepoint stands for the newest frame. -/
theorem Invariant.newest (hinv : Invariant pager frames) :
    (pager.savepoints = [] ∧ frames = []) ∨
      ∃ newest older frame olderFrames, pager.savepoints = newest :: older ∧
        frames = frame :: olderFrames ∧ pager.subjournal.isSome ∧
        Level pager.holdsWriteLock newest frame pager.view ∧
        Chain pager.holdsWriteLock (newest :: older) (frame :: olderFrames) pager.view := by
  have hch := hinv.chain
  have hjournal := hinv.journal_some
  generalize pager.savepoints = savepoints at hch hjournal ⊢
  cases hch with
  | nil => exact .inl ⟨rfl, rfl⟩
  | cons hlevel hrest =>
    exact .inr ⟨_, _, _, _, rfl, rfl, hjournal (by simp), hlevel, .cons hlevel hrest⟩

/-! ## Loading and evicting -/

theorem contents_loadPage (tag : Option ℕ) (hid : pager.cache id = none) :
    (loadPage id tag pager).contents = pager.contents := by
  funext other
  by_cases heq : other = id
  · subst heq
    rw [contents_of_not_cached hid]
    simp [contents, loadPage]
  · simp only [contents, loadPage, update_of_ne heq]
    rfl

theorem contents_evictPage (hcoherent : Coherent pager) (hp : pager.cache id = some p)
    (hspilled : p.dirty → p.spilled) : (evictPage id pager).contents = pager.contents := by
  funext other
  by_cases heq : other = id
  · subst heq
    rw [contents_of_cached hp, hcoherent hp hspilled]
    simp [contents, evictPage, stored]
  · simp only [contents, evictPage, update_of_ne heq]
    rfl

theorem Invariant.load (hinv : Invariant pager frames) (tag : Option ℕ)
    (hid : pager.cache id = none) : Invariant (loadPage id tag pager) frames := by
  refine hinv.of_contents_eq ?_ (contents_loadPage tag hid) rfl rfl rfl rfl
  intro x p hp hspilled
  by_cases heq : x = id
  · subst heq
    simp only [loadPage, update_self, some.injEq] at hp
    rw [← hp]
    rfl
  · simp only [loadPage, update_of_ne heq] at hp
    exact hinv.coherent hp hspilled

theorem Invariant.evict (hinv : Invariant pager frames) (hp : pager.cache id = some p)
    (hspilled : p.dirty → p.spilled) : Invariant (evictPage id pager) frames := by
  refine hinv.of_contents_eq ?_ (contents_evictPage hinv.coherent hp hspilled) rfl rfl rfl rfl
  intro x p hp hspilled
  by_cases heq : x = id
  · simp [evictPage, heq] at hp
  · simp only [evictPage, update_of_ne heq] at hp
    exact hinv.coherent hp hspilled

/-! ## Opening -/

theorem Invariant.openSubjournal (hinv : Invariant pager frames) :
    Invariant (openSubjournal pager) frames ∧ (openSubjournal pager).contents = pager.contents ∧
      (openSubjournal pager).subjournal.isSome := by
  cases hjournal : pager.subjournal with
  | some journal => simpa [Subjournal.openSubjournal, hjournal] using hinv
  | none =>
    have hpager : Subjournal.openSubjournal pager = { pager with subjournal := some [] } := by
      simp [Subjournal.openSubjournal, hjournal]
    rw [hpager]
    refine ⟨⟨hinv.coherent, fun _ => rfl, hinv.size_pos, ?_⟩, rfl, rfl⟩
    have hch := hinv.chain
    rw [view, hjournal] at hch
    exact hch

/-- The new savepoint has the present contents as its snapshot and nothing to undo. -/
theorem Invariant.open (hinv : Invariant pager frames) (hjournal : pager.subjournal.isSome)
    (kind : SavepointKind) (deferredFkViolations : ℤ) :
    Invariant (openSavepointWithKind kind (databaseSize pager.contents) deferredFkViolations pager)
      (⟨kind, deferredFkViolations, pager.contents⟩ :: frames) := by
  have hoffset : (pager.savepoints.head?.map (·.writeOffset)).getD 0 =
      pager.view.journal.length := by
    have hch := hinv.chain
    generalize pager.savepoints = savepoints at hch ⊢
    cases hch with
    | nil hempty => simp [hempty]
    | cons hlevel _ => simp [hlevel.write_eq]
  refine ⟨hinv.coherent, fun _ => hjournal, hinv.size_pos, ?_⟩
  refine Chain.push hinv.chain rfl rfl hoffset hoffset rfl rfl hinv.size_pos ?_ ?_ fun _ _ => rfl
  · cases hlock : pager.holdsWriteLock <;> simp [openSavepointWithKind, hlock]
  · cases hlock : pager.holdsWriteLock <;>
      simp [openSavepointWithKind, hlock, position, view]

/-! ## Changing and spilling pages -/

/-- The newest savepoint, if there is one, has an image of the page or is older. -/
def CoveredBy (pager : Pager) (id : ℕ) : Prop :=
  ∀ savepoint ∈ pager.savepoints.head?, Covered savepoint pager.view.journal id

/-- The two pagers differ in their savepoints and subjournals at most. -/
structure SamePages (pager pager' : Pager) : Prop where
  cache_eq : pager'.cache = pager.cache
  wal_eq : pager'.wal = pager.wal
  database_eq : pager'.database = pager.database
  lock_eq : pager'.holdsWriteLock = pager.holdsWriteLock

theorem SamePages.refl (pager : Pager) : SamePages pager pager := ⟨rfl, rfl, rfl, rfl⟩

theorem SamePages.trans {pager'' : Pager} (ha : SamePages pager pager')
    (hb : SamePages pager' pager'') : SamePages pager pager'' :=
  ⟨hb.cache_eq.trans ha.cache_eq, hb.wal_eq.trans ha.wal_eq,
    hb.database_eq.trans ha.database_eq, hb.lock_eq.trans ha.lock_eq⟩

theorem SamePages.contents_eq (hsame : SamePages pager pager') :
    pager'.contents = pager.contents := by
  funext id
  simp only [contents, stored, hsame.cache_eq, hsame.wal_eq, hsame.database_eq]

theorem writeRecord_end (journal : List (ℕ × ByteBuffer)) (r : ℕ × ByteBuffer) :
    writeRecord journal journal.length r = journal ++ [r] := by
  simp [writeRecord]

section
variable (hinv : Invariant pager frames)
include hinv

/-- After `subjournal_page_if_required` the page is covered, and may be changed or
written to the log. -/
theorem subjournalPageIfRequired_spec {c : ByteBuffer}
    (hc : c = pager.contents id ∨ ∀ savepoint ∈ pager.savepoints.head?, savepoint.dbSize < id) :
    Invariant (subjournalPageIfRequired pager id c) frames ∧
      SamePages pager (subjournalPageIfRequired pager id c) ∧
      CoveredBy (subjournalPageIfRequired pager id c) id ∧
      ∀ other, CoveredBy pager other → CoveredBy (subjournalPageIfRequired pager id c) other := by
  obtain ⟨hsavepoints, -⟩ | ⟨newest, older, frame, frames, hsavepoints, rfl, hjournal, hlevel, hch⟩ :=
    hinv.newest
  · have hskip : subjournalPageIfRequired pager id c = pager := by
      cases hjournal : pager.subjournal <;>
        simp [subjournalPageIfRequired, hsavepoints, hjournal]
    rw [hskip]
    refine ⟨hinv, SamePages.refl pager, ?_, fun _ hcovered => hcovered⟩
    simp [CoveredBy, hsavepoints]
  · obtain ⟨journal, hjournal⟩ := isSome_iff_exists.1 hjournal
    have hview : pager.view.journal = journal := by simp [view, hjournal]
    simp only [subjournalPageIfRequired, hjournal, hsavepoints]
    split_ifs with hyoung himage
    · refine ⟨hinv, SamePages.refl pager, ?_, fun _ hcovered => hcovered⟩
      simp [CoveredBy, hsavepoints, Covered, hyoung]
    · refine ⟨hinv, SamePages.refl pager, ?_, fun _ hcovered => hcovered⟩
      have hm := hlevel.bitmap id himage
      simp [CoveredBy, hsavepoints, Covered, hm]
    · obtain rfl : c = pager.contents id := hc.resolve_right (by
        simpa [hsavepoints] using hyoung)
      have hgrown := hch.append_image id
      have hdrop : (journal ++ [(id, pager.contents id)]).drop newest.startOffset =
          journal.drop newest.startOffset ++ [(id, pager.contents id)] :=
        drop_append_of_le_length (hview ▸ hlevel.start_le)
      rw [hlevel.write_eq, hview] at hgrown ⊢
      rw [writeRecord_end]
      refine ⟨⟨hinv.coherent, fun _ => rfl, hinv.size_pos, hgrown⟩, ⟨rfl, rfl, rfl, rfl⟩, ?_, ?_⟩
      · simp [CoveredBy, Covered, view, hdrop]
      · intro other hcovered
        have hother := hcovered newest (by simp [hsavepoints])
        rw [hview] at hother
        simp only [CoveredBy, Covered, view, head?_cons, mem_def,
          some.injEq, forall_eq', getD_some, hdrop, KeyedLog.keys_append,
          mem_append]
        exact hother.imp_right Or.inl

/-- Changing a page after it has been journalled. -/
theorem Invariant.modify {contents : ByteBuffer}
    (hp : p.contents = pager.contents id ∨ ∀ savepoint ∈ pager.savepoints.head?, savepoint.dbSize < id)
    (hsize : databaseSize pager.contents ≤ databaseSize (update pager.contents id contents)) :
    Invariant (modifyPage id p contents pager) frames ∧ (modifyPage id p contents pager).contents =
        update pager.contents id contents := by
  obtain ⟨hinv', hsame, hcovered, -⟩ := subjournalPageIfRequired_spec hinv hp
  generalize hjournalled : subjournalPageIfRequired pager id p.contents = pager' at *
  have hc : (modifyPage id p contents pager).contents = update pager.contents id contents := by
    funext other
    rw [← hsame.contents_eq]
    by_cases heq : other = id
    · subst heq
      simp [Pager.contents, modifyPage, hjournalled]
    · simp only [Pager.contents, modifyPage, hjournalled, update_of_ne heq]
      rfl
  refine ⟨⟨?_, ?_, ?_, ?_⟩, hc⟩
  · intro other cached hcached hspilled
    by_cases heq : other = id
    · subst heq
      simp only [modifyPage, update_self, some.injEq] at hcached
      rw [← hcached] at hspilled
      simp [CachedPage.setDirty] at hspilled
    · simp only [modifyPage, hjournalled, update_of_ne heq] at hcached ⊢
      exact hinv'.coherent hcached hspilled
  · simpa [modifyPage, hjournalled] using hinv'.journal_some
  · rw [hc]
    exact hinv.size_pos.trans hsize
  · have hgrows : databaseSize pager'.view.contents ≤
        databaseSize (update pager'.view.contents id contents) := by
      simpa [view, hsame.contents_eq] using hsize
    have hch := hinv'.chain.modify hgrows hcovered
    have hview : (modifyPage id p contents pager).view =
        { pager'.view with contents := update pager'.view.contents id contents } := by
      rw [view, hc]
      simp [view, modifyPage, hjournalled, hsame.contents_eq]
    rw [hview]
    simpa [modifyPage, hjournalled] using hch

variable {pages : List (ℕ × ByteBuffer)}

/-- Journalling a batch of pages covers all of them. -/
theorem subjournalPages_spec
    (hpages : ∀ entry ∈ pages, entry.2 = pager.contents entry.1) :
    ∃ pager', pages.foldl (fun pager p => subjournalPageIfRequired pager p.1 p.2) pager =
        pager' ∧ Invariant pager' frames ∧ SamePages pager pager' ∧
      (∀ id ∈ keys pages, CoveredBy pager' id) ∧
      ∀ other, CoveredBy pager other → CoveredBy pager' other := by
  induction pages generalizing pager with
  | nil => exact ⟨pager, rfl, hinv, SamePages.refl pager, by simp, fun _ hcovered => hcovered⟩
  | cons entry pages ih =>
    obtain ⟨hinv', hsame, hcovered, hkeeps⟩ :=
      subjournalPageIfRequired_spec hinv (.inl (hpages entry mem_cons_self))
    obtain ⟨pager', hrun, hinv'', hsame', hpages', hkeeps'⟩ := ih hinv' fun later hlater => by
      rw [hsame.contents_eq]
      exact hpages later (mem_cons_of_mem _ hlater)
    refine ⟨pager', hrun, hinv'', hsame.trans hsame', ?_, fun other hother =>
      hkeeps' other (hkeeps other hother)⟩
    intro id hid
    rcases mem_cons.1 hid with rfl | hid
    · exact hkeeps' _ hcovered
    · exact hpages' id hid

/-- Spilling writes the cached contents to the log; nothing becomes visible by it. -/
theorem Invariant.spill (hlock : pager.holdsWriteLock = true)
    (hpages : ∀ entry ∈ pages, ∃ p, pager.cache entry.1 = some p ∧ p.contents = entry.2 ∧
      p.dirty ∧ ¬p.spilled) :
    Invariant (spillPages pages pager) frames ∧
      (spillPages pages pager).contents = pager.contents := by
  have hcurrent : ∀ entry ∈ pages, entry.2 = pager.contents entry.1 := by
    intro entry hentry
    obtain ⟨p, hcached, hc, -⟩ := hpages entry hentry
    rw [contents_of_cached hcached, hc]
  obtain ⟨pager', hrun, hinv', hsame, hcovered, -⟩ := subjournalPages_spec hinv hcurrent
  have hcache : ∀ id ∉ keys pages, (spillPages pages pager).cache id = pager.cache id := by
    intro id hid
    simp [spillPages, hrun, hsame.cache_eq, hid]
  have hstored : ∀ id ∉ keys pages, (spillPages pages pager).stored id = pager.stored id := by
    intro id hid
    simp only [stored, spillPages, hrun, hsame.wal_eq, hsame.database_eq]
    exact redo_append_apply_of_notMem hid
  have hw : ∀ id ∈ keys pages, (spillPages pages pager).stored id = pager.contents id := by
    intro id hid
    simp only [stored, spillPages, hrun, redo_append]
    refine redo_apply_of_mem hid ?_
    rintro entry hentry rfl
    exact hcurrent entry hentry
  have hc : (spillPages pages pager).contents = pager.contents := by
    funext id
    by_cases hid : id ∈ keys pages
    · obtain ⟨entry, hentry, rfl⟩ := mem_map.1 hid
      obtain ⟨p, hcached, -⟩ := hpages entry hentry
      simp [contents, spillPages, hrun, hsame.cache_eq, hid, hcached]
    · simp only [contents, hcache id hid, hstored id hid]
  refine ⟨⟨?_, ?_, hc ▸ hinv.size_pos, ?_⟩, hc⟩
  · intro id p hp hspilled
    by_cases hid : id ∈ keys pages
    · rw [hw id hid, ← hc, contents_of_cached hp]
    · rw [hstored id hid]
      exact hinv.coherent (hcache id hid ▸ hp) hspilled
  · simpa [spillPages, hrun] using hinv'.journal_some
  · have hch := hinv'.chain
    rw [hsame.lock_eq, hlock] at hch
    have hgrown := hch.append_frames fun savepoint hsavepoint id hid =>
      hcovered id hid savepoint hsavepoint
    have hview : (spillPages pages pager).view =
        { pager'.view with wal := pager'.view.wal ++ pages } := by
      rw [view, hc, ← hsame.contents_eq]
      simp [view, spillPages, hrun]
    have hlock' : (spillPages pages pager).holdsWriteLock = true := by
      simp [spillPages, hrun, hsame.lock_eq, hlock]
    rw [hview, hlock']
    simpa [spillPages, hrun] using hgrown

end

/-! ## Taking the write lock -/

theorem Invariant.beginWrite (hinv : Invariant pager frames) (restarts : Bool) :
    Invariant (beginWriteTx restarts pager) frames ∧
      (beginWriteTx restarts pager).contents = pager.contents := by
  by_cases hlock : pager.holdsWriteLock = true
  · rw [beginWriteTx, if_pos hlock]
    exact ⟨hinv, rfl⟩
  · have hunlocked : pager.holdsWriteLock = false := by simpa using hlock
    have hstored : (beginWriteTx restarts pager).stored = pager.stored := by
      cases restarts <;> simp [beginWriteTx, hunlocked, stored, redo]
    have hcache : (beginWriteTx restarts pager).cache = pager.cache := by
      cases restarts <;> simp [beginWriteTx, hunlocked]
    have hc : (beginWriteTx restarts pager).contents = pager.contents := by
      funext id
      simp only [contents, hcache, hstored]
    refine ⟨⟨?_, ?_, hc ▸ hinv.size_pos, ?_⟩, hc⟩
    · intro id p hp hspilled
      rw [hstored]
      exact hinv.coherent (hcache ▸ hp) hspilled
    · cases restarts <;> simpa [beginWriteTx, hunlocked] using hinv.journal_some
    · have hch := hinv.chain
      rw [hunlocked] at hch
      have hlocked := hch.lock (beginWriteTx restarts pager).wal
      have hview : (beginWriteTx restarts pager).view =
          { pager.view with wal := (beginWriteTx restarts pager).wal } := by
        rw [view, hc]
        cases restarts <;> simp [view, beginWriteTx, hunlocked]
      rw [hview]
      cases restarts <;> simpa [beginWriteTx, hunlocked] using hlocked

/-! ## Releasing -/

variable {frame : Frame} {older : List Savepoint}

/-- Removing savepoints from the top of the stack. -/
theorem Invariant.keepOlder (hinv : Invariant pager frames) (hjournal : pager.subjournal.isSome)
    {newest : Savepoint} {olderFrames : List Frame}
    (hch : Chain pager.holdsWriteLock (newest :: older) (frame :: olderFrames) pager.view) :
    Invariant (keepOlder older pager.view.journal.length pager) olderFrames ∧
      (keepOlder older pager.view.journal.length pager).contents = pager.contents := by
  cases older with
  | nil =>
    cases hch with
    | cons _ hrest =>
      cases hrest
      refine ⟨⟨hinv.coherent, fun hne => absurd rfl hne, hinv.size_pos, .nil ?_⟩, rfl⟩
      cases hempty : pager.subjournal <;>
        simp [Subjournal.keepOlder, truncateSubjournal, view, hempty]
  | cons parent older =>
    exact ⟨⟨hinv.coherent, fun _ => hjournal, hinv.size_pos, hch.tail (by simp)⟩, rfl⟩

/-! ## Rolling back -/

/-- The pages that have an image are restored from their first one; the others are left
alone. -/
theorem restoreImages_spec (dbSize : ℕ) (rs : List (ℕ × ByteBuffer)) (seen : Finset ℕ)
    (pager : Pager) (st : ℕ → ByteBuffer) :
    ∃ dirtyPages cache, restoreImages dbSize rs seen pager =
        { pager with dirtyPages := dirtyPages, cache := cache } ∧
      ∀ id, cache id =
        if id ∈ seen ∨ dbSize < id ∨ id ∉ keys rs then pager.cache id
        else some ⟨undo rs st id, true, false, none⟩ := by
  induction rs generalizing seen pager with
  | nil => exact ⟨pager.dirtyPages, pager.cache, rfl, by simp⟩
  | cons r rest ih =>
    obtain ⟨p, image⟩ := r
    rw [restoreImages]
    split_ifs with hseen hyoung
    all_goals
      refine (ih _ _).imp fun dirtyPages h => h.imp fun cache h => ⟨h.1, fun id => ?_⟩
      rw [h.2]
      by_cases heq : id = p
      · subst heq
        simp [*, undo]
      · simp [heq, undo]

variable {journal : List (ℕ × ByteBuffer)}

/-- The cache after a rollback, before clean pages are dropped: the images, and below the
old end of the database the pages that have none. -/
theorem rollbackToSnapshot_cases
    (hjournal : pager.subjournal = some journal) (st : ℕ → ByteBuffer) :
    ∃ pager', rollbackToSnapshot savepoint journal.length pager = pager' ∧
      pager'.subjournal = some (journal.take savepoint.startOffset) ∧
      pager'.wal = pager.wal.take (savepoint.position pager.wal) ∧
      pager'.database = pager.database ∧ pager'.holdsWriteLock = pager.holdsWriteLock ∧
      (∀ id, savepoint.dbSize < id → pager'.cache id = none) ∧
      (∀ id ≤ savepoint.dbSize, id ∈ keys (journal.drop savepoint.startOffset) → pager'.cache id =
          some ⟨undo (journal.drop savepoint.startOffset) st id, true, false, none⟩) ∧
      ∀ id ≤ savepoint.dbSize, id ∉ keys (journal.drop savepoint.startOffset) →
        pager'.cache id = pager.cache id ∨
          pager'.cache id = none ∧ ∃ p, pager.cache id = some p ∧ ¬p.dirty := by
  have hrs : (journal.drop savepoint.startOffset).take
      (journal.length - savepoint.startOffset) = journal.drop savepoint.startOffset := by
    rw [← length_drop, take_length]
  obtain ⟨dirtyPages, cache, hrun, hcache⟩ :=
    restoreImages_spec savepoint.dbSize (journal.drop savepoint.startOffset) ∅ pager st
  simp only [Finset.notMem_empty, false_or] at hcache
  have himage : ∀ id ≤ savepoint.dbSize, id ∈ keys (journal.drop savepoint.startOffset) →
      cache id = some ⟨undo (journal.drop savepoint.startOffset) st id, true, false, none⟩ := by
    intro id hid hkeys
    rw [hcache, if_neg (not_or.2 ⟨not_lt.2 hid, not_not.2 hkeys⟩)]
  have hx : ∀ id ≤ savepoint.dbSize, id ∉ keys (journal.drop savepoint.startOffset) →
      cache id = pager.cache id := by
    intro id hid hkeys
    rw [hcache, if_pos (.inr hkeys)]
  refine ⟨_, rfl, ?_⟩
  simp only [rollbackToSnapshot, hjournal, hrs, hrun]
  cases hpos : savepoint.walPos with
  | none =>
    refine ⟨rfl, ?_, rfl, rfl, fun id hid => if_pos hid, fun id hid hkeys => ?_,
      fun id hid hkeys => .inl ?_⟩
    · simp [position, hpos, truncateCache, truncateSubjournal]
    · exact (if_neg (not_lt.2 hid)).trans (himage id hid hkeys)
    · exact (if_neg (not_lt.2 hid)).trans (hx id hid hkeys)
  | some maxFrame =>
    refine ⟨rfl, ?_, rfl, rfl, fun id hid => ?_, fun id hid hkeys => ?_, fun id hid hkeys => ?_⟩
    · simp [position, hpos, rewindWal, truncateCache, truncateSubjournal]
    · simp [rewindWal, truncateCache, hid]
    · simp [rewindWal, truncateCache, truncateSubjournal, not_lt.2 hid, himage id hid hkeys]
    · -- A clean page may go, if it was read from a frame that is gone.
      simp only [rewindWal, truncateCache, truncateSubjournal, not_lt.2 hid, if_false,
        hx id hid hkeys]
      cases hp : pager.cache id with
      | none => exact .inl rfl
      | some p =>
        by_cases hdirty : p.dirty = true
        · exact .inl (by simp [hdirty])
        · by_cases htag : p.walTag.any (maxFrame < ·) = true
          · exact .inr ⟨by simp [hdirty, htag], p, rfl, hdirty⟩
          · exact .inl (by simp [htag])

/-- A rollback leaves the snapshot behind, as far as the database reached then: an image
is the snapshot's contents, and a page without one is unchanged and can still be read
from the rewound log. -/
theorem rollbackToSnapshot_spec {locked : Bool}
    (hcoherent : Coherent pager) (hjournal : pager.subjournal = some journal)
    (hlevel : Level locked savepoint frame pager.view) :
    ∃ pager', rollbackToSnapshot savepoint journal.length pager = pager' ∧
      Coherent pager' ∧ pager'.subjournal.isSome ∧
      pager'.holdsWriteLock = pager.holdsWriteLock ∧
      pager'.view =
        { pager.view.openedAt savepoint frame.contents with contents := pager'.contents } ∧
      ∀ id ≤ savepoint.dbSize, pager'.contents id = frame.contents id := by
  obtain ⟨pager', hrun, hjournal', hwal, hdb, hlock, hyoung, himage, hx⟩ :=
    rollbackToSnapshot_cases hjournal pager.contents
  have hview : pager.view.journal = journal := by simp [view, hjournal]
  have hundo := hlevel.restorable.undo_eq
  have hunlogged := hlevel.restorable.unlogged
  rw [hview] at hundo hunlogged
  have hstored : ∀ id ≤ savepoint.dbSize, id ∉ keys (journal.drop savepoint.startOffset) →
      pager'.stored id = pager.stored id := by
    intro id hid hkeys
    have hsplit := take_append_drop (savepoint.position pager.wal) pager.wal
    rw [stored, stored, hwal, hdb]
    conv_rhs => rw [← hsplit]
    exact (redo_append_apply_of_notMem (hunlogged id hid hkeys)).symm
  refine ⟨pager', hrun, ?_, by simp [hjournal'], hlock, ?_, ?_⟩
  · intro id page hpage hspilled
    by_cases hid : id ≤ savepoint.dbSize
    · by_cases hkeys : id ∈ keys (journal.drop savepoint.startOffset)
      · rw [himage id hid hkeys, some.injEq] at hpage
        simp [← hpage] at hspilled
      · rcases hx id hid hkeys with hkept | ⟨hgone, -⟩
        · rw [hstored id hid hkeys]
          exact hcoherent (hkept ▸ hpage) hspilled
        · rw [hgone] at hpage
          cases hpage
    · rw [hyoung id (by omega)] at hpage
      cases hpage
  · simp [view, View.openedAt, hjournal', hwal, hjournal]
  · intro id hid
    rw [← hundo id hid]
    by_cases hkeys : id ∈ keys (journal.drop savepoint.startOffset)
    · rw [contents_of_cached (himage id hid hkeys)]
      rfl
    · rw [undo_apply_of_notMem hkeys]
      rcases hx id hid hkeys with hkept | ⟨hgone, page, hpage, hclean⟩
      · simp only [contents, view, hkept, hstored id hid hkeys]
      · rw [contents_of_not_cached hgone, hstored id hid hkeys]
        exact (hcoherent hpage fun hdirty => absurd hdirty hclean).symm.trans
          (contents_of_cached hpage).symm

/-- After a rollback the savepoint can be dropped, or kept with nothing to undo. -/
theorem Invariant.rolledBack (hcoherent : Coherent pager) (hjournal : pager.subjournal.isSome)
    (hch : Chain pager.holdsWriteLock (savepoint :: older) (frame :: frames) pager.view) :
    ∃ pager', rollbackToSnapshot savepoint pager.view.journal.length pager = pager' ∧
      RestoredTo frame.contents pager'.contents ∧
      Invariant { pager' with savepoints := setWriteOffset savepoint.startOffset older } frames ∧
      Invariant { pager' with
        savepoints := savepoint.fromSnapshot :: setWriteOffset savepoint.startOffset older }
        (frame :: frames) := by
  obtain ⟨journal, hjournal⟩ := isSome_iff_exists.1 hjournal
  have hlen : pager.view.journal.length = journal.length := by simp [view, hjournal]
  cases hch with
  | cons hlevel hrest =>
    obtain ⟨pager', hrun, hcoherent', hjournal', hlock, hview, hagree⟩ :=
      rollbackToSnapshot_spec hcoherent hjournal hlevel
    have hsize := databaseSize_congr hlevel.size_pos hagree
    have hpos : 1 ≤ databaseSize pager'.contents := by
      rw [hsize, ← hlevel.size_eq]
      exact hlevel.size_pos
    have hstart : (pager.view.openedAt savepoint frame.contents).journal.length =
        savepoint.startOffset := length_take_of_le hlevel.start_le
    have hoffset := hrest.setWriteOffset_eq
    rw [hstart] at hoffset
    rw [← hlock] at hrest
    rw [hlen, hoffset]
    refine ⟨pager', hrun, ⟨hsize, hlevel.size_eq ▸ hagree⟩,
      ⟨hcoherent', fun _ => hjournal', hpos, ?_⟩, ⟨hcoherent', fun _ => hjournal', hpos, ?_⟩⟩
    · have hkept : Chain pager'.holdsWriteLock older frames
          { pager.view.openedAt savepoint frame.contents with contents := pager'.contents } := by
        refine hrest.congr_contents fun parent hparent id hid => hagree id ?_
        have hle := hrest.head_size_le parent hparent
        exact hid.trans (hle.trans hlevel.size_eq.ge)
      rw [← hview] at hkept
      exact hkept
    · have hjournalEnd : savepoint.startOffset = pager'.view.journal.length := by
        rw [hview, ← hstart]
      refine Chain.push ?_ hlevel.kind_eq hlevel.counter_eq hjournalEnd hjournalEnd rfl
        hlevel.size_eq hlevel.size_pos (hlevel.locked_eq.trans hlock.symm) ?_ hagree
      · have hopened : { pager'.view with contents := frame.contents } =
            pager.view.openedAt savepoint frame.contents := by rw [hview]; rfl
        exact hopened ▸ hrest
      · show savepoint.position pager'.view.wal = pager'.view.wal.length
        rw [hview]
        exact hlevel.position_take

/-! ## The refinement -/

/-- The pager shows the contents of the page store, and its savepoints stand for the
frames. -/
def Refines (pager : Pager) (store : PageStore) : Prop :=
  pager.contents = store.contents ∧ Invariant pager store.stack

theorem Invariant.allocate (hinv : Invariant pager frames) (hid : databaseSize pager.contents < id)
    (p : CachedPage) (contents : ByteBuffer) :
    Invariant (modifyPage id p contents pager) frames ∧ (modifyPage id p contents pager).contents =
        update pager.contents id contents := by
  have hne : 1 ≠ id := by
    have hpos := hinv.size_pos
    omega
  refine hinv.modify (.inr fun savepoint hsavepoint => ?_) ?_
  · exact (hinv.chain.head_size_le savepoint hsavepoint).trans_lt hid
  · rw [databaseSize, databaseSize, update_of_ne hne]

section
variable (hinv : Invariant pager frames)
include hinv

theorem Step.simulate_release : ∃ store', SpecStep ⟨pager.contents, frames⟩ (.release, .unit) store' ∧
      Refines (releaseSavepoint pager) store' := by
  obtain ⟨hsavepoints, rfl⟩ | ⟨newest, older, frame, frames, hsavepoints, rfl, hjournal, hlevel, hch⟩ :=
    hinv.newest
  · refine ⟨_, .releaseNone (by simp), ?_⟩
    simpa [releaseSavepoint, hsavepoints, Refines] using hinv
  · by_cases hkind : newest.kind = .statement
    · obtain ⟨hinv', hcontents⟩ := hinv.keepOlder hjournal hch
      refine ⟨_, .release (hlevel.kind_eq ▸ hkind), ?_⟩
      rw [releaseSavepoint, hsavepoints]
      simp only [if_pos hkind, hlevel.write_eq]
      exact ⟨hcontents, hinv'⟩
    · refine ⟨_, .releaseNone (by simpa [← hlevel.kind_eq] using hkind), ?_⟩
      simpa [releaseSavepoint, hsavepoints, hkind, Refines] using hinv

/-- Where the records of the newest savepoint end, the subjournal ends. -/
theorem Invariant.journalEnd (hne : pager.savepoints ≠ []) (default : ℕ) :
    (pager.savepoints.head?.map (·.writeOffset)).getD default = pager.view.journal.length := by
  have hch := hinv.chain
  generalize pager.savepoints = savepoints at hch hne ⊢
  cases hch with
  | nil => exact absurd rfl hne
  | cons hlevel _ => simp [hlevel.write_eq]

variable (name : String)

/-- A name is looked up in both stacks with the same outcome. -/
theorem Invariant.find :
    (findNamed kind name pager.savepoints = none ∧
        findNamed Frame.kind name frames = none) ∨
      ∃ target older frame olderFrames,
        findNamed kind name pager.savepoints = some (target, older) ∧
        findNamed Frame.kind name frames = some (frame, olderFrames) ∧
        pager.savepoints ≠ [] ∧
        Chain pager.holdsWriteLock ({ target with writeOffset := pager.view.journal.length } :: older)
          (frame :: olderFrames) pager.view := by
  have hch := hinv.chain
  rw [← hch.setWriteOffset_eq] at hch
  rcases hch.find name with hno | ⟨target, older, frame, olderFrames, hsome, hframe, hf⟩
  · exact .inl hno
  · refine .inr ⟨target, older, frame, olderFrames, hsome, hframe, ?_, hf⟩
    intro hempty
    rw [hempty] at hsome
    cases hsome

theorem Step.simulate_releaseNamed :
    ∃ store', SpecStep ⟨pager.contents, frames⟩
      (.releaseNamed name, .released (releaseNamedSavepoint name pager).1) store' ∧
      Refines (releaseNamedSavepoint name pager).2 store' := by
  rcases hinv.find name with ⟨hnone, hframe⟩ |
    ⟨target, older, frame, olderFrames, hsome, hframe, hne, hch⟩
  · simp only [releaseNamedSavepoint, hnone]
    exact ⟨_, .releaseNotFound hframe, rfl, hinv⟩
  · obtain ⟨hinv', hcontents⟩ := hinv.keepOlder (hinv.journal_some hne) hch
    have hkind : target.kind = frame.kind := by
      cases hch with | cons hlevel _ => exact hlevel.kind_eq
    have hempty : older = [] ↔ olderFrames = [] := by
      cases hch with | cons _ hrest => cases hrest <;> simp
    simp only [releaseNamedSavepoint, hsome, hinv.journalEnd hne]
    split
    next hcommit =>
      obtain rfl := hempty.1 hcommit.2
      exact ⟨_, .releaseCommit hframe (hkind ▸ hcommit.1), rfl, hinv⟩
    next hrelease =>
      rw [hkind, hempty] at hrelease
      exact ⟨_, .releaseNamed hframe hrelease, hcontents, hinv'⟩

theorem Step.simulate_rollback : ∃ store', SpecStep ⟨pager.contents, frames⟩
      (.rollback, .rolledBack (rollbackToNewestSavepoint pager).1) store' ∧
      Refines (rollbackToNewestSavepoint pager).2 store' := by
  obtain ⟨hsavepoints, rfl⟩ | ⟨newest, older, frame, frames, hsavepoints, rfl, hjournal, hlevel, hch⟩ :=
    hinv.newest <;> simp only [rollbackToNewestSavepoint, hsavepoints]
  · exact ⟨_, .rollbackNone (by simp), rfl, hinv⟩
  · by_cases hkind : newest.kind = .statement
    · have hpopped : Coherent { pager with savepoints := older } := hinv.coherent
      obtain ⟨pager', hrun, hrestored, hinv', -⟩ := Invariant.rolledBack hpopped hjournal hch
      have hres : rollbackToSnapshot newest newest.writeOffset
          { pager with savepoints := older } = pager' := by
        rw [hlevel.write_eq]
        exact hrun
      rw [if_pos hkind, hres]
      exact ⟨_, .rollback (hlevel.kind_eq ▸ hkind) hrestored, rfl, hinv'⟩
    · rw [if_neg hkind]
      exact ⟨_, .rollbackNone (by simpa [← hlevel.kind_eq] using hkind), rfl, hinv⟩

theorem Step.simulate_rollbackNamed :
    ∃ store', SpecStep ⟨pager.contents, frames⟩
      (.rollbackNamed name, .rolledBackTo (rollbackToNamedSavepoint name pager).1) store' ∧
      Refines (rollbackToNamedSavepoint name pager).2 store' := by
  rcases hinv.find name with ⟨hnone, hframe⟩ |
    ⟨target, older, frame, olderFrames, hsome, hframe, hne, hch⟩
  · simp only [rollbackToNamedSavepoint, hnone]
    exact ⟨_, .rollbackNotFound hframe, rfl, hinv⟩
  · obtain ⟨pager', hrun, hrestored, -, hinv'⟩ := Invariant.rolledBack hinv.coherent
      (hinv.journal_some hne) hch
    have hres : rollbackToSnapshot target pager.view.journal.length pager = pager' := hrun
    have hcounter : target.deferredFkViolations = frame.deferredFkViolations := by
      cases hch with | cons hlevel _ => exact hlevel.counter_eq
    simp only [rollbackToNamedSavepoint, hsome, hinv.journalEnd hne, hres, hcounter]
    exact ⟨_, .rollbackNamed hframe hrestored, rfl, hinv'⟩

end

theorem Step.simulate {label : Event × Response} (hrel : Refines pager store)
    (hstep : Step pager label pager') :
    ∃ store', SpecStep store label store' ∧ Refines pager' store' := by
  obtain ⟨contents, stack⟩ := store
  obtain ⟨rfl, hinv⟩ := hrel
  cases hstep with
  | «open» =>
    obtain ⟨hinv', hcontents, hjournal⟩ := hinv.openSubjournal
    refine ⟨_, .open, ?_, ?_⟩
    · exact hcontents
    · rw [← hcontents]
      exact hinv'.open hjournal _ _
  | load hid => exact ⟨_, .load, contents_loadPage _ hid, hinv.load _ hid⟩
  | evict hp hspilled =>
    exact ⟨_, .evict, contents_evictPage hinv.coherent hp hspilled, hinv.evict hp hspilled⟩
  | modify hp hsize =>
    exact ⟨_, .modify, (hinv.modify (.inl (contents_of_cached hp).symm) hsize).symm⟩
  | allocate hid => exact ⟨_, .allocate, (hinv.allocate hid _ _).symm⟩
  | spill hlock hpages => exact ⟨_, .spill, (hinv.spill hlock hpages).symm⟩
  | beginWrite => exact ⟨_, .beginWrite, (hinv.beginWrite _).symm⟩
  | release => exact Step.simulate_release hinv
  | releaseNamed => exact Step.simulate_releaseNamed hinv _
  | rollback => exact Step.simulate_rollback hinv
  | rollbackNamed => exact Step.simulate_rollbackNamed hinv _

/-- At every moment the savepoints stand for the frames one by one. -/
theorem Chain.stack_eq {locked : Bool} {savepoints : List Savepoint} {view : View}
    (hch : Chain locked savepoints frames view) :
    savepoints.map (fun savepoint => (savepoint.kind, savepoint.dbSize)) =
      frames.map (fun frame => (frame.kind, databaseSize frame.contents)) := by
  induction hch with
  | nil => rfl
  | cons hlevel _ ih => rw [map_cons, map_cons, ih, hlevel.kind_eq, hlevel.size_eq]

/-- The pager refines the page store: whatever happens to it, the calls return what the
store's operations return and the pages read as the store's pages.  In particular a
rollback restores the pages and the size of the database as they were when the target
was opened and removes the savepoints above it, and a release leaves the pages alone and
the older copies in force. -/
theorem savepoints_refine {pager pager' : Pager} (hinit : Initial pager)
    {labels : List (Event × Response)} (hrun : Simulation.Run Step pager labels pager') :
    ∃ stack, Simulation.Run SpecStep ⟨pager.contents, []⟩ labels ⟨pager'.contents, stack⟩ ∧
      pager'.savepoints.map (fun savepoint => (savepoint.kind, savepoint.dbSize)) =
        stack.map (fun frame => (frame.kind, databaseSize frame.contents)) := by
  have hstart : Refines pager ⟨pager.contents, []⟩ := by
    refine ⟨rfl, hinit.coherent, fun hne => absurd hinit.savepoints_eq hne, hinit.size_pos, ?_⟩
    rw [hinit.savepoints_eq]
    exact .nil hinit.journal_eq
  obtain ⟨⟨contents, stack⟩, hspec, rfl, hinv⟩ := hrun.simulate Step.simulate hstart
  exact ⟨stack, hspec, hinv.chain.stack_eq⟩

/-- A database of five pages, read for the first time. -/
def fivePages : Pager where
  cache := fun _ => none
  dirtyPages := ∅
  wal := []
  holdsWriteLock := false
  database := fun _ => zeros.writeU32 28 5
  subjournal := none
  savepoints := []

theorem fivePages_initial : Initial fivePages where
  savepoints_eq := rfl
  journal_eq := rfl
  size_pos := by
    have hsize : databaseSize fivePages.contents = 5 :=
      readU32_writeU32 zeros 28 (by decide)
    omega
  coherent := nofun

theorem savepoints_refine_fivePages : ∃ labels pager stack, labels.map Prod.fst =
        [.open (.named "outer" false) 0, .load 2 none, .beginWrite true,
          .modify 2 zeros, .rollbackNamed "outer"] ∧
      Simulation.Run Step fivePages labels pager ∧
      Simulation.Run SpecStep ⟨fivePages.contents, []⟩ labels ⟨pager.contents, stack⟩ := by
  have hmodify : ∀ {pager page}, pager.cache 2 = some page →
      Step pager (.modify 2 zeros, .unit)
        (modifyPage 2 page zeros pager) := fun hpage =>
    .modify hpage (by rw [databaseSize, databaseSize, update_of_ne (by decide)])
  have hrun := Simulation.Run.cons (@Step.open fivePages (.named "outer" false) 0)
    (.cons (@Step.load _ 2 none rfl) (.cons (@Step.beginWrite _ true) (.cons (hmodify rfl)
      (.cons (@Step.rollbackNamed _ "outer") (.nil _)))))
  obtain ⟨stack, hspec, -⟩ := savepoints_refine fivePages_initial hrun
  exact ⟨_, _, stack, rfl, hrun, hspec⟩

end Turso.Subjournal
