import Turso.Foundation.PartialMap
import Turso.Foundation.Simulation
import Turso.Sync.LazyStorage.Model

/-!
# Lazy loads and local writes

A page that is marked for a load must not be written before the load ends, and a page that has been
written must not be marked: then no load replaces a local write, and every read that completes with
data returns the latest local write or the bytes of the server (`reads_right_and_writes_kept`).

The source keeps only part of this.  `write_page` respects the marks, but `write_pages` does not look
at them, and a load marks the pages of its segment and those it prefetches without asking whether they
were written.  `Careful` says what the calls have to avoid; `segmentLoad_replaces_write` is a run that
does not avoid it.
-/

namespace Turso.Sync

open Option Function List Files PageStates

variable {Bytes : Type}
variable {outcome : Outcome Bytes} {task : Task Bytes}

/-! ## What the calls have to avoid -/

/-- The server answers with pages that were requested, at the fixed revision. -/
def ValidReply (server : PageNo → Option Bytes) (guard : Guard) : Reply Bytes → Prop
  | .pages loaded => ∀ entry ∈ loaded, entry.1 ∈ guard.pagesToLoad ∧ server entry.1 = some entry.2
  | _ => True

def Phase.isPrefetching : Phase Bytes → Bool
  | .prefetching _ => true
  | _ => false

namespace Event

/-- The answers of the server in a step are valid. -/
def Answered (server : PageNo → Option Bytes) (storage : Storage Bytes) : Event Bytes → Prop
  | .resume index reply => ∀ task ∈ storage.tasks[index]?, ValidReply server task.guard reply
  | _ => True

/-- The pages that a call writes. -/
def writes : Event Bytes → List PageNo
  | .writePage page _ => [page]
  | .writePages first buffers => range' first buffers.length
  | _ => []

/-- The pages that a call writes without looking at their state. -/
def unguardedWrites : Event Bytes → List PageNo
  | .writePages first buffers => range' first buffers.length
  | _ => []

end Event

variable (opts : PartialSyncOpts Bytes)

/-- The pages a resumed coroutine tries to mark for a load: at its start, if no other operation has
the page, the page and its segment, and once it has its page those to prefetch. -/
def Task.marks (states : PageStates Bytes) (reply : Reply Bytes) (task : Task Bytes) :
    List PageNo :=
  match task.phase, reply with
  | .created, _ =>
    if (states task.page).isSome then [] else task.page :: opts.segmentPages task.page
  | .waiting, _ =>
    match (states task.page).bind PageInfo.loadResult with
    | some (.ok data) => (opts.prefetchPages data).getD []
    | _ => []
  | .loading, .pages loaded => ((loaded.lookup task.page).bind opts.prefetchPages).getD []
  | _, _ => []

/-- The pages a step tries to mark for a load. -/
def Event.marks (opts : PartialSyncOpts Bytes) (storage : Storage Bytes) : Event Bytes → List PageNo
  | .resume index reply =>
    (storage.tasks[index]?.map fun task => task.marks opts storage.states reply).getD []
  | _ => []

/-- No page is marked for a load after it was written, no page is written by `write_pages` while it is
marked, and none while a read that has its bytes is still prefetching. -/
structure Careful (storage : Storage Bytes) (event : Event Bytes) : Prop where
  loads : ∀ page ∈ event.marks opts storage, storage.written page = none
  writes : ∀ page ∈ event.unguardedWrites, storage.states page = none
  reads : ∀ page ∈ event.writes, ∀ task ∈ storage.tasks, task.page = page →
    task.phase.isPrefetching = false

/-! ## Marks and guards -/

section Guards

variable (server : PageNo → Option Bytes) (written : PageNo → Option Bytes)
  (states : PageStates Bytes)

/-- Marked pages have not been written, and finished loads carry the bytes of the server. -/
def MarksOk : Prop :=
  ∀ page info, states page = some info → info.operation = .load ∧ written page = none ∧
    ∀ data, info.loadResult = some (.ok data) → server page = some data

/-- The pages that a guard has to load are marked, and their loads have not ended. -/
def Owns (guard : Guard) : Prop :=
  ∀ page ∈ guard.pagesToLoad, ∃ info, states page = some info ∧ info.loadResult = none

/-- The invariant as the running coroutine sees it. -/
structure GuardedOk (others : Set Guard) (guarded : Guarded Bytes) : Prop where
  marks : MarksOk server written guarded.states
  own : Owns guarded.states guarded.guard
  other : ∀ guard ∈ others, Owns guarded.states guard
  disjoint : ∀ guard ∈ others, ∀ page ∈ guard.pagesToLoad, page ∉ guarded.guard.pagesToLoad

variable {server written} {states : PageStates Bytes} {page : PageNo}
  {res : Option (Except SyncError Bytes)}

/-- A change of one page that has the marks of a load. -/
theorem MarksOk.update (hmarks : MarksOk server written states) (hw : written page = none)
    {waits : ℕ}
    (hres : ∀ data, res = some (.ok data) → server page = some data) :
    MarksOk server written (update states page (some ⟨.load, res, waits⟩)) := by
  intro x info hinfo
  obtain ⟨rfl, rfl⟩ | ⟨-, ho⟩ := PartialMap.update_eq_some hinfo
  · exact ⟨rfl, hw, hres⟩
  · exact hmarks x info ho

theorem MarksOk.remove (hmarks : MarksOk server written states) :
    MarksOk server written (Function.update states page none) := by
  intro x info hinfo
  by_cases hx : x = page
  · rw [hx, update_self] at hinfo
    cases hinfo
  · rw [update_of_ne hx] at hinfo
    exact hmarks x info hinfo

variable {guard : Guard}

/-- The load of a marked page that a guard owns is open. -/
theorem Owns.loadResult_eq (howns : Owns states guard) {operation : PageOperation}
    {waits : ℕ}
    (hinfo : states page = some ⟨operation, res, waits⟩) (hm : page ∈ guard.pagesToLoad) :
    res = none := by
  obtain ⟨owned, hsome, hno⟩ := howns page hm
  rw [hinfo] at hsome
  cases hsome
  exact hno

/-- A page without an operation belongs to no guard. -/
theorem Owns.not_mem (howns : Owns states guard) (hinfo : states page = none) :
    page ∉ guard.pagesToLoad := by
  intro hm
  obtain ⟨owned, hsome, -⟩ := howns page hm
  rw [hinfo] at hsome
  cases hsome

variable {info : Option (PageInfo Bytes)}

/-- A change of a page that the guard does not own, or that leaves its load open. -/
theorem Owns.update (howns : Owns states guard)
    (hinfo : page ∈ guard.pagesToLoad → ∃ open', info = some open' ∧ open'.loadResult = none) :
    Owns (update states page info) guard := by
  intro x hx
  by_cases hsame : x = page
  · rw [hsame] at hx ⊢
    rw [update_self]
    exact hinfo hx
  · rw [update_of_ne hsame]
    exact howns x hx

variable {others : Set Guard} {guarded guarded' : Guarded Bytes}

/-- A change of one page, of which no guard loses an open load. -/
theorem GuardedOk.update (hok : GuardedOk server written others guarded) {waits : List PageNo}
    (hmarks : MarksOk server written (update guarded.states page info))
    (hinfo : ∀ guard, Owns guarded.states guard → page ∈ guard.pagesToLoad →
      ∃ open', info = some open' ∧ open'.loadResult = none) :
    GuardedOk server written others
      ⟨⟨guarded.guard.pagesToLoad, waits⟩, update guarded.states page info⟩ :=
  ⟨hmarks, hok.own.update (hinfo _ hok.own),
    fun guard hguard => (hok.other guard hguard).update (hinfo _ (hok.other guard hguard)),
    hok.disjoint⟩

/-- A page whose load a guard starts had no operation. -/
theorem Guarded.states_of_loadStart (hstart : guarded.loadStart page = .ok (.load, guarded')) :
    guarded.states page = none := by
  unfold Guarded.loadStart PageStates.loadStart at hstart
  split at hstart
  · cases hstart
  · cases hstart
  · assumption

section
variable (hok : GuardedOk server written others guarded)
include hok

/-- A page that is marked for a load is marked by no other guard. -/
theorem GuardedOk.loadStart (hw : guarded.states page = none → written page = none)
    {action : PageLoadAction} (hstart : guarded.loadStart page = .ok (action, guarded')) :
    GuardedOk server written others guarded' := by
  unfold Guarded.loadStart PageStates.loadStart at hstart
  split at hstart
  · cases hstart
  · next result waits hinfo =>
      cases hstart
      obtain ⟨-, hno, hres⟩ := hok.marks page _ hinfo
      exact hok.update (hok.marks.update hno hres) fun guard howns hm =>
        ⟨_, rfl, howns.loadResult_eq hinfo hm⟩
  · next hinfo =>
      cases hstart
      refine ⟨hok.marks.update (hw hinfo) nofun, ?_, fun guard hguard =>
        (hok.other guard hguard).update fun _ => ⟨_, rfl, rfl⟩, ?_⟩
      · exact forall_mem_append.2 ⟨hok.own.update fun _ => ⟨_, rfl, rfl⟩,
          forall_mem_singleton.2 ⟨⟨.load, none, 0⟩, update_self _ _ _, rfl⟩⟩
      · intro guard hguard x hx hm
        rcases mem_append.mp hm with ho | hlast
        · exact hok.disjoint guard hguard x hx ho
        · rw [mem_singleton.mp hlast] at hx
          exact (hok.other guard hguard).not_mem hinfo hx

theorem GuardedOk.waitEnd (he : guarded.waitEnd page = some guarded') :
    GuardedOk server written others guarded' := by
  unfold Guarded.waitEnd PageStates.waitEnd at he
  split at he
  · next operation res waits hinfo =>
      obtain ⟨rfl, hw, hres⟩ := hok.marks page _ hinfo
      split at he
      · next hlast =>
          cases he
          refine hok.update hok.marks.remove fun guard howns hm => ?_
          rw [howns.loadResult_eq hinfo hm] at hlast
          exact absurd hlast.2 (by simp)
      · cases he
        exact hok.update (hok.marks.update hw hres) fun guard howns hm =>
          ⟨_, rfl, howns.loadResult_eq hinfo hm⟩
  · cases he

/-- A load ends with the bytes of the server or with an error; the page belongs to no other guard. -/
theorem GuardedOk.loadEnd (hp : ∀ guard ∈ others, page ∉ guard.pagesToLoad)
    {res : Except SyncError Bytes} (hres : ∀ data, res = .ok data → server page = some data)
    (he : guarded.loadEnd page res = some guarded') :
    GuardedOk server written others guarded' := by
  have hown : ∀ info : Option (PageInfo Bytes), Owns (Function.update guarded.states page info)
      { guarded.guard with
        pagesToLoad := guarded.guard.pagesToLoad.filter fun x => x ≠ page } := by
    intro info x hx
    obtain ⟨hm, hne⟩ := mem_filter.mp hx
    rw [update_of_ne (of_decide_eq_true hne)]
    exact hok.own x hm
  have hx : ∀ info : Option (PageInfo Bytes), ∀ guard ∈ others,
      Owns (Function.update guarded.states page info) guard := fun info guard hguard =>
    (hok.other guard hguard).update fun hm => absurd hm (hp guard hguard)
  have hdisjoint : ∀ guard ∈ others, ∀ x ∈ guard.pagesToLoad,
      x ∉ guarded.guard.pagesToLoad.filter fun x => x ≠ page :=
    fun guard hguard x hm hfilter =>
      hok.disjoint guard hguard x hm (mem_filter.mp hfilter).1
  unfold Guarded.loadEnd PageStates.loadEnd at he
  split at he
  · next previous waits hinfo =>
      obtain ⟨-, hw, -⟩ := hok.marks page _ hinfo
      split at he
      · cases he
        refine ⟨hok.marks.update hw fun data h => hres data (some.inj h), hown _, hx _, hdisjoint⟩
      · cases he
        exact ⟨hok.marks.remove, hown _, hx _, hdisjoint⟩
  · cases he

end

/-- A fold that may panic keeps what each of its steps keeps. -/
theorem foldlM_invariant {α β : Type} (inv : α → Prop) {f : α → β → Option α} {list : List β}
    (hstep : ∀ start e next, e ∈ list → inv start → f start e = some next → inv next) :
    ∀ {start final : α}, inv start → list.foldlM f start = some final → inv final := by
  induction list with
  | nil =>
    intro start final hstart hfold
    cases hfold
    exact hstart
  | cons e rest ih =>
    intro start final hstart hfold
    obtain ⟨next, hnx, hrest⟩ := bind_eq_some_iff.mp hfold
    exact ih (fun start' e' next' hm => hstep start' e' next' (mem_cons_of_mem _ hm))
      (hstep start e next mem_cons_self hstart hnx) hrest

theorem GuardedOk.tryMark (hok : GuardedOk server written others guarded)
    (hw : written page = none) (hmark : guarded.tryMark page = some guarded') :
    GuardedOk server written others guarded' := by
  unfold Guarded.tryMark at hmark
  split at hmark
  · next hstart => exact (hok.loadStart (fun _ => hw) hstart).waitEnd hmark
  · next hstart =>
      cases hmark
      exact hok.loadStart (fun _ => hw) hstart
  · cases hmark
    exact hok

theorem GuardedOk.drop (hok : GuardedOk server written others guarded)
    (hdrop : guarded.drop = some guarded') : GuardedOk server written others guarded' := by
  obtain ⟨waited, hwaited, hended⟩ := bind_eq_some_iff.mp hdrop
  have hwaitedOk : GuardedOk server written others waited :=
    foldlM_invariant _ (fun _ _ _ _ h hstep => h.waitEnd hstep) hok hwaited
  refine foldlM_invariant _ (fun _ p _ hm h hstep => h.loadEnd ?_ (by nofun) hstep) hwaitedOk hended
  exact fun guard hguard hx => hwaitedOk.disjoint guard hguard p hx hm

end Guards

/-! ## Files -/

section Files

variable [DecidableEq Bytes] (server written : PageNo → Option Bytes)

/-- Written pages are in the clean file, and what can be read of the others is from the server. -/
structure FilesOk (files : Files Bytes) : Prop where
  kept : ∀ page bytes, written page = some bytes →
    files.clean page = some bytes ∧ files.dirtyPage page = none
  fetched : ∀ page bytes, written page = none → files.validPage page = some bytes →
    server page = some bytes

variable {server written} {files : Files Bytes} {page : PageNo}

omit [DecidableEq Bytes] in
theorem install_eq_write (bytes : Bytes) : files.install page bytes = files.write page bytes := by
  rw [install, write]
  congr 2
  funext dirty
  exact update_idem _ _ _

omit [DecidableEq Bytes] in
theorem dirtyPage_write_of_ne {other : PageNo} (bytes : Bytes) (hother : other ≠ page) :
    (files.write page bytes).dirtyPage other = files.dirtyPage other := by
  cases hdirty : files.dirty with
  | none => simp [dirtyPage, write, hdirty]
  | some dirty => simp [dirtyPage, write, hdirty, hother]

omit [DecidableEq Bytes] in
theorem dirtyPage_write_self (bytes : Bytes) : (files.write page bytes).dirtyPage page = none := by
  cases hdirty : files.dirty with
  | none | some dirty => simp [dirtyPage, write, hdirty]

section
variable (hfiles : FilesOk server written files)
include hfiles

variable {bytes : Bytes}

/-- A page is replaced by its latest local write, or else by the bytes of the server. -/
theorem FilesOk.replace {written' : PageNo → Option Bytes}
    (hothers : ∀ x ≠ page, written' x = written x)
    (hpage : (written' page).or (server page) = some bytes) :
    FilesOk server written' (files.write page bytes) := by
  have hself : (files.write page bytes).clean page = some bytes := update_self _ _ _
  refine ⟨fun x kept hkept => ?_, fun x read hx hread => ?_⟩
  · by_cases hsame : x = page
    · subst hsame
      rw [hkept] at hpage
      exact ⟨hself.trans hpage.symm, dirtyPage_write_self _⟩
    · rw [hothers x hsame] at hkept
      obtain ⟨hclean, hdirty⟩ := hfiles.kept x kept hkept
      exact ⟨(update_of_ne hsame _ _).trans hclean, (dirtyPage_write_of_ne _ hsame).trans hdirty⟩
  · by_cases hsame : x = page
    · subst hsame
      rw [validPage, dirtyPage_write_self, hself] at hread
      rw [hx] at hpage
      exact hpage.trans hread
    · have hvalid : (files.write page bytes).validPage x = files.validPage x := by
        rw [validPage, validPage, dirtyPage_write_of_ne _ hsame]
        rw [show (files.write page bytes).clean x = files.clean x from update_of_ne hsame _ _]
      exact hfiles.fetched x read (hothers x hsame ▸ hx) (hvalid ▸ hread)

/-- A page that was not written may be loaded. -/
theorem FilesOk.install (hw : written page = none)
    (hserver : server page = some bytes) : FilesOk server written (files.install page bytes) := by
  rw [install_eq_write]
  exact hfiles.replace (fun _ _ => rfl) (by rw [hw]; exact hserver)

theorem FilesOk.write (bytes : Bytes) :
    FilesOk server (update written page (some bytes)) (files.write page bytes) :=
  hfiles.replace (fun _ hx => update_of_ne hx _ _) (by rw [update_self]; rfl)

/-- What can be read without a load is right. -/
theorem FilesOk.read_right
    (hread : files.validPage page = some bytes) : (written page).or (server page) = some bytes := by
  cases hw : written page with
  | none =>
    exact hfiles.fetched page bytes hw hread
  | some kept =>
    obtain ⟨hclean, hdirty⟩ := hfiles.kept page kept hw
    rw [validPage, hclean, hdirty] at hread
    exact hread

end

end Files

/-! ## One resumption -/

section Resume

variable [DecidableEq Bytes] {server written : PageNo → Option Bytes} {others : Set Guard}
  {opts : PartialSyncOpts Bytes} {page : PageNo} {guarded : Guarded Bytes} {files : Files Bytes}
  {running : Running Bytes}

variable (server written others page) in
/-- What holds when a coroutine that reads `page` yields or ends. -/
structure RunningOk (running : Running Bytes) : Prop where
  guarded : GuardedOk server written others running.guarded
  files : FilesOk server written running.files
  phase : ∀ data, running.phase = .prefetching data → server page = some data ∧ written page = none
  outcome : ∀ other bytes, running.outcome = .data other bytes →
    other = page ∧ server page = some bytes ∧ written page = none

section
variable (hguarded : GuardedOk server written others guarded)
  (hfiles : FilesOk server written files)
include hguarded hfiles

theorem finish_ok (houtcome : ∀ x bytes, outcome = .data x bytes →
      x = page ∧ server page = some bytes ∧ written page = none)
    (hrun : finish guarded files outcome = some running) :
    RunningOk server written others page running := by
  obtain ⟨dropped, hdrop, rfl⟩ := map_eq_some_iff.mp hrun
  exact ⟨hguarded.drop hdrop, hfiles, nofun, houtcome⟩

theorem afterData_ok {data : Bytes} (hserver : server page = some data) (hw : written page = none)
    (hmarks : ∀ x ∈ (opts.prefetchPages data).getD [], written x = none)
    (hrun : afterData opts page data guarded files = some running) :
    RunningOk server written others page running := by
  have houtcome : ∀ x bytes, Outcome.data page data = .data x bytes →
      x = page ∧ server page = some bytes ∧ written page = none := by
    intro x bytes h
    cases h
    exact ⟨rfl, hserver, hw⟩
  unfold afterData at hrun
  cases hrefs : opts.prefetchPages data with
  | none =>
    rw [hrefs] at hrun
    exact finish_ok hguarded hfiles houtcome hrun
  | some refs =>
    rw [hrefs] at hrun hmarks
    obtain ⟨marked, hmarked, hrest⟩ := bind_eq_some_iff.mp hrun
    have hmarkedOk : GuardedOk server written others marked :=
      foldlM_invariant _ (fun _ x _ hm h hstep => h.tryMark (hmarks x hm) hstep) hguarded hmarked
    split at hrest
    · exact finish_ok hmarkedOk hfiles houtcome hrest
    · cases hrest
      refine ⟨hmarkedOk, hfiles, fun x h => ?_, nofun⟩
      cases h
      exact ⟨hserver, hw⟩

/-- The pages of a valid answer are marked by this coroutine, so they were not written. -/
theorem installPages_ok {loaded : List (PageNo × Bytes)}
    (hld : ∀ e ∈ loaded, e.1 ∈ guarded.guard.pagesToLoad ∧
      server e.1 = some e.2) {res : Guarded Bytes × Files Bytes}
    (hrun : installPages loaded guarded files = some res) :
    GuardedOk server written others res.1 ∧ FilesOk server written res.2 := by
  refine foldlM_invariant (fun current : Guarded Bytes × Files Bytes =>
    GuardedOk server written others current.1 ∧ FilesOk server written current.2)
    (fun current e next hentry h hstep => ?_) ⟨hguarded, hfiles⟩ hrun
  obtain ⟨hm, hserver⟩ := hld e hentry
  obtain ⟨info, hinfo, -⟩ := hguarded.own e.1 hm
  have hw := (hguarded.marks e.1 info hinfo).2.1
  obtain ⟨ended, hended, rfl⟩ := map_eq_some_iff.mp hstep
  refine ⟨h.1.loadEnd (fun guard hguard hx => ?_) (fun data hdata => ?_) hended,
    h.2.install hw hserver⟩
  · exact hguarded.disjoint guard hguard e.1 hx hm
  · cases hdata
    exact hserver

end

theorem resume_ok {reply : Reply Bytes} {states : PageStates Bytes}
    (hguarded : GuardedOk server written others ⟨task.guard, states⟩)
    (hfiles : FilesOk server written files)
    (hphase : ∀ data, task.phase = .prefetching data →
      server task.page = some data ∧ written task.page = none)
    (hreply : ValidReply server task.guard reply)
    (hmarks : ∀ x ∈ task.marks opts states reply, written x = none)
    (hrun : resume opts task reply states files = some running) :
    RunningOk server written others task.page running := by
  obtain ⟨p, guard, phase⟩ := task
  cases phase with
  | created =>
    have hnew : GuardedOk server written others ⟨.new, states⟩ :=
      ⟨hguarded.marks, fun _ h => absurd h not_mem_nil, hguarded.other, fun _ _ _ _ => not_mem_nil⟩
    have hmarked : states p = none → ∀ x ∈ p :: opts.segmentPages p, written x = none := by
      intro hno x hx
      refine hmarks x ?_
      simp only [Task.marks, hno]
      exact hx
    have hp : states p = none → written p = none := fun hno =>
      hmarked hno p mem_cons_self
    change resumeCreated opts p states files = some running at hrun
    unfold resumeCreated at hrun
    split at hrun
    · cases hrun
      exact ⟨hnew, hfiles, nofun, nofun⟩
    · next guarded hstart =>
        cases hrun
        exact ⟨hnew.loadStart hp hstart, hfiles, nofun, nofun⟩
    · next guarded hstart =>
        have hno : states p = none := Guarded.states_of_loadStart hstart
        obtain ⟨marked, hfold, hrest⟩ := bind_eq_some_iff.mp hrun
        cases hrest
        refine ⟨?_, hfiles, nofun, nofun⟩
        exact foldlM_invariant _ (fun _ x _ hm h hstep =>
          h.tryMark (hmarked hno x (mem_cons_of_mem _ hm)) hstep)
          (hnew.loadStart hp hstart) hfold
  | waiting =>
    change resumeWaiting opts p ⟨guard, states⟩ files = some running at hrun
    unfold resumeWaiting at hrun
    cases hinfo : states p with
    | none =>
      simp only [hinfo] at hrun
      cases hrun
    | some info =>
      simp only [hinfo] at hrun
      obtain ⟨-, hw, hres⟩ := hguarded.marks p info hinfo
      split at hrun
      · cases hrun
        exact ⟨hguarded, hfiles, nofun, nofun⟩
      · exact finish_ok hguarded hfiles (by nofun) hrun
      · next data hdata =>
          refine afterData_ok hguarded hfiles (hres data hdata) hw ?_ hrun
          intro x hx
          refine hmarks x ?_
          simp only [Task.marks, hinfo, bind_some, hdata]
          exact hx
  | loading =>
    cases reply with
    | pending =>
      cases hrun
      exact ⟨hguarded, hfiles, nofun, nofun⟩
    | failed => exact finish_ok hguarded hfiles (by nofun) hrun
    | pages loaded =>
      obtain ⟨⟨ended, installed⟩, hinstall, hrest⟩ := bind_eq_some_iff.mp hrun
      obtain ⟨hended, hinstalled⟩ := installPages_ok hguarded hfiles hreply hinstall
      cases hlookup : loaded.lookup p with
      | none =>
        simp only [hlookup] at hrest
        exact finish_ok hended hinstalled (by nofun) hrest
      | some data =>
        simp only [hlookup] at hrest
        obtain ⟨before, after, hld, -⟩ := lookup_eq_some_iff.mp hlookup
        obtain ⟨hm, hserver⟩ := hreply (p, data) (by simp [hld])
        obtain ⟨info, hinfo, -⟩ := hguarded.own p hm
        refine afterData_ok hended hinstalled hserver (hguarded.marks p info hinfo).2.1 ?_ hrest
        intro x hx
        refine hmarks x ?_
        simp only [Task.marks, hlookup, bind_some]
        exact hx
  | prefetching data =>
    obtain ⟨hserver, hw⟩ := hphase data rfl
    cases reply with
    | pending =>
      cases hrun
      exact ⟨hguarded, hfiles, fun x _ => hphase x ‹_›, nofun⟩
    | failed => exact finish_ok hguarded hfiles (by nofun) hrun
    | pages loaded =>
      obtain ⟨⟨ended, installed⟩, hinstall, hrest⟩ := bind_eq_some_iff.mp hrun
      obtain ⟨hended, hinstalled⟩ := installPages_ok hguarded hfiles hreply hinstall
      refine finish_ok hended hinstalled (fun x bytes h => ?_) hrest
      cases h
      exact ⟨rfl, hserver, hw⟩
  | finished => cases hrun

end Resume

/-! ## The whole storage -/

section System

variable [DecidableEq Bytes] (server : PageNo → Option Bytes)

/-- The invariant of the storage and its coroutines. -/
structure Safe (storage : Storage Bytes) : Prop where
  marks : MarksOk server storage.written storage.states
  files : FilesOk server storage.written storage.files
  owns : ∀ (index : ℕ) (task : Task Bytes), storage.tasks[index]? = some task →
    Owns storage.states task.guard
  disjoint : ∀ (index index' : ℕ) (task task' : Task Bytes), storage.tasks[index]? = some task →
    storage.tasks[index']? = some task' → ∀ page ∈ task.guard.pagesToLoad,
      page ∈ task'.guard.pagesToLoad → index = index'
  phases : ∀ task ∈ storage.tasks, ∀ data, task.phase = .prefetching data →
    server task.page = some data ∧ storage.written task.page = none

/-- A storage that was just opened: no operation is active, nothing was written, and what can be read
is from the server. -/
structure Opened (storage : Storage Bytes) : Prop where
  states : ∀ page, storage.states page = none
  tasks : storage.tasks = []
  written : ∀ page, storage.written page = none
  fetched : ∀ page bytes, storage.files.validPage page = some bytes → server page = some bytes

variable {server}

theorem Opened.safe {storage : Storage Bytes} (hopened : Opened server storage) :
    Safe server storage where
  marks p info hinfo := by
    rw [hopened.states] at hinfo
    cases hinfo
  files := by
    refine ⟨fun p bytes hw => ?_, fun p bytes _ => hopened.fetched p bytes⟩
    rw [hopened.written] at hw
    cases hw
  owns index task htask := by
    rw [hopened.tasks] at htask
    cases htask
  disjoint index i' task task' htask := by
    rw [hopened.tasks] at htask
    cases htask
  phases task htask := by
    rw [hopened.tasks] at htask
    cases htask

variable {storage : Storage Bytes}

/-- The guards of the other coroutines. -/
def otherGuards (storage : Storage Bytes) (index : ℕ) : Set Guard :=
  { guard | ∃ (index' : ℕ) (task : Task Bytes), index' ≠ index ∧
    storage.tasks[index']? = some task ∧ task.guard = guard }

theorem Safe.guardedOk (hsafe : Safe server storage) {i : ℕ}
    (htask : storage.tasks[i]? = some task) :
    GuardedOk server storage.written (otherGuards storage i) ⟨task.guard, storage.states⟩ where
  marks := hsafe.marks
  own := hsafe.owns i task htask
  other := by
    rintro guard ⟨i', task', -, htask', rfl⟩
    exact hsafe.owns i' task' htask'
  disjoint := by
    rintro guard ⟨i', task', hne, htask', rfl⟩ p hp hown
    exact hne (hsafe.disjoint i' i task' task htask' htask p hp hown)

theorem Safe.set (hsafe : Safe server storage) {i : ℕ}
    (htask : storage.tasks[i]? = some task) {running : Running Bytes}
    (hrunning : RunningOk server storage.written (otherGuards storage i) task.page running) :
    Safe server { storage with
      files := running.files
      states := running.guarded.states
      tasks := storage.tasks.set i ⟨task.page, running.guarded.guard, running.phase⟩ } where
  marks := hrunning.guarded.marks
  files := hrunning.files
  owns i' task' htask' := by
    rcases eq_or_ne i' i with rfl | hne
    · rw [getElem?_set_self (List.getElem?_eq_some_iff.mp htask).1] at htask'
      cases htask'
      exact hrunning.guarded.own
    · rw [getElem?_set_ne hne.symm] at htask'
      exact hrunning.guarded.other _ ⟨i', task', hne, htask', rfl⟩
  disjoint a b task₁ task₂ ha hb p hpage₁ hpage₂ := by
    by_contra hne
    have hlt := (List.getElem?_eq_some_iff.mp htask).1
    rcases eq_or_ne a i with rfl | hfirstNe
    · rw [getElem?_set_self hlt] at ha
      rw [getElem?_set_ne hne] at hb
      cases ha
      exact hrunning.guarded.disjoint _ ⟨b, task₂, Ne.symm hne, hb, rfl⟩ p hpage₂ hpage₁
    · rw [getElem?_set_ne hfirstNe.symm] at ha
      rcases eq_or_ne b i with rfl | hsecondNe
      · rw [getElem?_set_self hlt] at hb
        cases hb
        exact hrunning.guarded.disjoint _ ⟨a, task₁, hfirstNe, ha, rfl⟩ p hpage₁ hpage₂
      · rw [getElem?_set_ne hsecondNe.symm] at hb
        exact hne (hsafe.disjoint a b task₁ task₂ ha hb p hpage₁ hpage₂)
  phases task' htask' data hdata := by
    rcases mem_or_eq_of_mem_set htask' with ho | rfl
    · exact hsafe.phases task' ho data hdata
    · exact hrunning.phase data hdata

/-- A page without an active operation is written. -/
theorem Safe.writeFile (hsafe : Safe server storage) {page : PageNo}
    (hstates : storage.states page = none)
    (hreads : ∀ task ∈ storage.tasks, task.page = page → task.phase.isPrefetching = false)
    (buffer : Bytes) : Safe server (storage.writeFile page buffer) where
  marks x info hinfo := by
    obtain ⟨hload, hw, hres⟩ := hsafe.marks x info hinfo
    refine ⟨hload, ?_, hres⟩
    have hne : x ≠ page := fun hsame => by
      rw [hsame] at hinfo
      exact absurd (hstates.symm.trans hinfo) (by simp)
    exact (update_of_ne hne _ _).trans hw
  files := hsafe.files.write buffer
  owns := hsafe.owns
  disjoint := hsafe.disjoint
  phases task htask data hdata := by
    obtain ⟨hserver, hw⟩ := hsafe.phases task htask data hdata
    refine ⟨hserver, ?_⟩
    have hne : task.page ≠ page := fun hsame => by
      have hfalse := hreads task htask hsame
      rw [hdata] at hfalse
      cases hfalse
    exact (update_of_ne hne _ _).trans hw

/-- The pages of `write_pages`, one after the other. -/
theorem Safe.foldl_writeFile (a : PageNo) (es : List (Bytes × ℕ)) :
    ∀ {storage : Storage Bytes}, Safe server storage →
      (∀ e ∈ es, storage.states (a + e.2) = none ∧ ∀ task ∈ storage.tasks,
        task.page = a + e.2 → task.phase.isPrefetching = false) →
      Safe server (es.foldl (fun storage e =>
        storage.writeFile (a + e.2) e.1) storage) := by
  induction es with
  | nil => exact fun hsafe _ => hsafe
  | cons e rest ih =>
    intro storage hsafe hes
    obtain ⟨hstates, hreads⟩ := hes e mem_cons_self
    exact ih (hsafe.writeFile hstates hreads e.1) fun x hx =>
      hes x (mem_cons_of_mem _ hx)

theorem Safe.writePages (hsafe : Safe server storage) {a : PageNo} {buffers : List Bytes}
    (hpages : ∀ p ∈ range' a buffers.length, storage.states p = none ∧
      ∀ task ∈ storage.tasks, task.page = p → task.phase.isPrefetching = false) :
    Safe server (storage.writePages a buffers) := by
  refine Safe.foldl_writeFile a buffers.zipIdx hsafe fun e he => hpages _ ?_
  have hlt := snd_lt_of_mem_zipIdx he
  rw [mem_range'_1]
  omega

theorem Safe.writePage (hsafe : Safe server storage) {p : PageNo} {buffer : Bytes}
    {next : Storage Bytes}
    (hreads : ∀ task ∈ storage.tasks, task.page = p → task.phase.isPrefetching = false)
    (hstep : storage.writePage p buffer = some (next, outcome)) :
    Safe server next ∧ ∀ x bytes, outcome ≠ .data x bytes := by
  unfold Storage.writePage writeStart at hstep
  cases hstates : storage.states p with
  | some info =>
    simp only [hstates, isSome_some, if_true] at hstep
    cases hstep
    exact ⟨hsafe, nofun⟩
  | none =>
    have hended : writeEnd p
        (update storage.states p (some ⟨.write, none, 0⟩)) = some storage.states := by
      rw [writeEnd, update_self]
      show some (update (update _ _ _) _ _) = _
      rw [update_idem, ← hstates, update_eq_self]
    simp only [hstates, isSome_none, Bool.false_eq_true, if_false, hended] at hstep
    cases hstep
    exact ⟨hsafe.writeFile hstates hreads buffer, nofun⟩

omit [DecidableEq Bytes] in
/-- A task of a list that has grown by a coroutine with an empty guard was there before, if its guard
has a page to load. -/
theorem getElem?_of_guard_mem {tasks : List (Task Bytes)} {p : PageNo} {i : ℕ}
    (htask : (tasks ++ [⟨p, .new, .created⟩])[i]? = some task) {loaded : PageNo}
    (hld : loaded ∈ task.guard.pagesToLoad) : tasks[i]? = some task := by
  rw [getElem?_append] at htask
  split at htask
  · exact htask
  · rw [mem_singleton.mp (mem_of_getElem? htask)] at hld
    cases hld

/-- A new coroutine has an empty guard. -/
theorem Safe.create (hsafe : Safe server storage) (page : PageNo) :
    Safe server { storage with tasks := storage.tasks ++ [⟨page, .new, .created⟩] } where
  marks := hsafe.marks
  files := hsafe.files
  owns index task htask loaded hloaded :=
    hsafe.owns index task (getElem?_of_guard_mem htask hloaded) loaded hloaded
  disjoint index i' task task' htask htask' loaded hloaded hloaded' :=
    hsafe.disjoint index i' task task' (getElem?_of_guard_mem htask hloaded)
      (getElem?_of_guard_mem htask' hloaded') loaded hloaded hloaded'
  phases := forall_mem_append.2 ⟨hsafe.phases, forall_mem_singleton.2 nofun⟩

/-- One step keeps the invariant, and a read that completes with data in it returns the latest local
write, or else the bytes of the server. -/
theorem Safe.step (hsafe : Safe server storage) {opts : PartialSyncOpts Bytes} {event : Event Bytes}
    {next : Storage Bytes} (hcareful : Careful opts storage event)
    (hanswered : event.Answered server storage)
    (hstep : storage.step opts event = some (next, outcome)) :
    Safe server next ∧ ∀ p bytes, outcome = .data p bytes →
      (next.written p).or (server p) = some bytes := by
  cases event with
  | readPage p =>
    change some (storage.readPage p) = some (next, outcome) at hstep
    unfold Storage.readPage at hstep
    split at hstep
    · cases hstep
      exact ⟨hsafe, nofun⟩
    · split at hstep
      · next bytes hvalid =>
          cases hstep
          refine ⟨hsafe, fun x read h => ?_⟩
          cases h
          exact hsafe.files.read_right hvalid
      · cases hstep
        exact ⟨hsafe.create p, nofun⟩
  | writePage p buffer =>
    obtain ⟨hnx, houtcome⟩ := hsafe.writePage (hcareful.reads p (mem_singleton.mpr rfl)) hstep
    exact ⟨hnx, fun x bytes h => absurd h (houtcome x bytes)⟩
  | writePages a buffers =>
    cases hstep
    exact ⟨hsafe.writePages fun p hp => ⟨hcareful.writes p hp, hcareful.reads p hp⟩, nofun⟩
  | resume i reply =>
    obtain ⟨task, htask, hrest⟩ := bind_eq_some_iff.mp hstep
    obtain ⟨running, hrunning, hres⟩ := bind_eq_some_iff.mp hrest
    cases hres
    have hmarks : ∀ p ∈ task.marks opts storage.states reply, storage.written p = none := by
      intro p hp
      refine hcareful.loads p ?_
      rw [Event.marks, htask]
      exact hp
    have hok := resume_ok (hsafe.guardedOk htask) hsafe.files
      (hsafe.phases task (mem_of_getElem? htask)) (hanswered task htask) hmarks hrunning
    refine ⟨hsafe.set htask hok, fun p bytes h => ?_⟩
    obtain ⟨rfl, hserver, hw⟩ := hok.outcome p bytes h
    rw [hw]
    exact hserver

/-- A step with what it tells its caller, in which the calls avoid what they have to and the server
answers with its pages. -/
def CarefulStep (server : PageNo → Option Bytes) (opts : PartialSyncOpts Bytes)
    (storage : Storage Bytes) (label : Event Bytes × Outcome Bytes) (next : Storage Bytes) : Prop :=
  Careful opts storage label.1 ∧ label.1.Answered server storage ∧
    storage.step opts label.1 = some (next, label.2)

/-- In every state that careful steps reach, the clean file has the latest local write of each page
that was written, and a read that completes with data in the next careful step returns the latest
local write of its page, or else the bytes of the server. -/
theorem reads_right_and_writes_kept (hopened : Opened server storage)
    {opts : PartialSyncOpts Bytes} {labels : List (Event Bytes × Outcome Bytes)}
    {final : Storage Bytes}
    (hrun : Simulation.Run (CarefulStep server opts) storage labels final) :
    (∀ page bytes, final.written page = some bytes → final.files.clean page = some bytes) ∧
      ∀ event page bytes next, CarefulStep server opts final (event, .data page bytes) next →
        (next.written page).or (server page) = some bytes := by
  have hsafe : Safe server final := hrun.invariant
    (fun hstart hstep => (hstart.step hstep.1 hstep.2.1 hstep.2.2).1) hopened.safe
  refine ⟨fun page bytes hwritten => (hsafe.files.kept page bytes hwritten).1, ?_⟩
  intro event page bytes next hstep
  exact (hsafe.step hstep.1 hstep.2.1 hstep.2.2).2 page bytes rfl

/-! ## Two runs on a file of two pages -/

/-- Page 0 is a hole, page 1 is there. -/
def twoPages : Storage ℕ where
  files := ⟨fun page => if page = 1 then some 101 else none, some fun _ => none⟩
  fileSize := 2
  states := fun _ => none
  tasks := []
  written := fun _ => none

def twoPagesServer (page : PageNo) : Option ℕ :=
  if page < 2 then some (100 + page) else none

theorem twoPages_opened : Opened twoPagesServer twoPages where
  states _ := rfl
  tasks := rfl
  written _ := rfl
  fetched p bytes h := by
    by_cases hp : p = 1
    · subst hp
      exact h
    · have hno : twoPages.files.validPage p = none := by
        simp [validPage, twoPages, hp]
      rw [hno] at h
      cases h

/-- With segments of one page the load of page 0 leaves the write to page 1 alone. -/
theorem reads_right_twoPages : ∃ final next, final.files.clean 1 = some 7 ∧
      CarefulStep twoPagesServer ⟨4096, false, fun _ => none⟩ final
        (.resume 0 (.pages [(0, 100)]), .data 0 100) next ∧
      (next.written 0).or (twoPagesServer 0) = some 100 := by
  have hrun : ∃ final next, Simulation.Run
      (CarefulStep twoPagesServer ⟨4096, false, fun _ => none⟩) twoPages
      [(.writePage 1 7, .none), (.readPage 0, .none), (.resume 0 .pending, .none)] final ∧
      final.written 1 = some 7 ∧ CarefulStep twoPagesServer ⟨4096, false, fun _ => none⟩ final
        (.resume 0 (.pages [(0, 100)]), .data 0 100) next :=
    ⟨_, _, .cons ⟨⟨by decide, by decide, by decide⟩, trivial, rfl⟩
      (.cons ⟨⟨by decide, by decide, by decide⟩, trivial, rfl⟩
        (.cons ⟨⟨by decide, by decide, by decide⟩, fun _ _ => trivial, rfl⟩ (.nil _))),
      rfl, ⟨by decide, by decide, by decide⟩, (fun task htask entry hentry => by
        cases htask
        rw [mem_singleton.mp hentry]
        decide), rfl⟩
  obtain ⟨final, next, hrun, hwritten, hstep⟩ := hrun
  have hright := reads_right_and_writes_kept twoPages_opened hrun
  exact ⟨final, next, hright.1 1 7 hwritten, hstep, hright.2 _ 0 100 next hstep⟩

/-- With segments of two pages the load of page 0 replaces the write to page 1, and a read of page 1
returns the bytes of the server. -/
theorem segmentLoad_replaces_write : Opened twoPagesServer twoPages ∧
      ∃ storage loading final : Storage ℕ,
        twoPages.step ⟨8192, false, fun _ => none⟩ (.writePage 1 7) = some (storage, .none) ∧
        (do
          let (storage, _) ← storage.step ⟨8192, false, fun _ => none⟩ (.readPage 0)
          let (storage, _) ← storage.step ⟨8192, false, fun _ => none⟩ (.resume 0 .pending)
          pure storage) = some loading ∧
        (Event.resume 0 (.pages [(0, 100), (1, 101)])).Answered twoPagesServer loading ∧
        loading.step ⟨8192, false, fun _ => none⟩ (.resume 0 (.pages [(0, 100), (1, 101)])) =
          some (final, .data 0 100) ∧
        final.written 1 = some 7 ∧ final.files.clean 1 = some 101 ∧
        (final.step ⟨8192, false, fun _ => none⟩ (.readPage 1)).map Prod.snd =
          some (.data 1 101) := by
  refine ⟨twoPages_opened, _, _, _, rfl, rfl, fun task htask entry hentry => ?_, rfl, rfl, rfl, rfl⟩
  cases htask
  revert entry
  decide

end System

end Turso.Sync
