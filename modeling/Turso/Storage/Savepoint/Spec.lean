import Turso.Foundation.Simulation
import Turso.Storage.Savepoint.Model

/-!
# Savepoints as snapshots

Abstractly, a savepoint is a copy of all pages, and rolling back puts the copy back.
`PageStore` and its steps `SpecStep` say this; `Step` are the steps of the pager, with
the same events.  The log, the cache and the subjournal do not occur in the abstract
store: loading, evicting and spilling pages leave it alone.
-/

namespace Turso.Subjournal

/-! ## The abstract page store -/

/-- A savepoint, abstractly: a copy of all pages. -/
structure Frame where
  kind : SavepointKind
  deferredFkViolations : ℤ
  contents : ℕ → ByteBuffer

/-- The pages and the stack of copies, newest first. -/
structure PageStore where
  contents : ℕ → ByteBuffer
  stack : List Frame

/-- What happens to the pager. -/
inductive Event where
  | open (kind : SavepointKind) (deferredFkViolations : ℤ)
  | load (id : ℕ) (tag : Option ℕ)
  | evict (id : ℕ)
  | modify (id : ℕ) (contents : ByteBuffer)
  | allocate (id : ℕ) (buffer contents : ByteBuffer)
  | spill (pages : List (ℕ × ByteBuffer))
  | beginWrite (restarts : Bool)
  | release
  | releaseNamed (name : String)
  | rollback
  | rollbackNamed (name : String)

/-- What the call returns. -/
inductive Response where
  | unit
  | released (result : SavepointResult)
  | rolledBack (done : Bool)
  | rolledBackTo (deferredFkViolations : Option ℤ)

/-- `contents` are those of the snapshot, as far as the database reached then. -/
def RestoredTo (snapshot contents : ℕ → ByteBuffer) : Prop :=
  databaseSize contents = databaseSize snapshot ∧
    ∀ id ≤ databaseSize snapshot, contents id = snapshot id

/-- The steps of the page store.  Only changes and rollbacks alter the pages; releases
only remove copies. -/
inductive SpecStep : PageStore → Event × Response → PageStore → Prop
  | open {store kind deferredFkViolations} :
      SpecStep store (.open kind deferredFkViolations, .unit)
        { store with stack := ⟨kind, deferredFkViolations, store.contents⟩ :: store.stack }
  | load {store id tag} : SpecStep store (.load id tag, .unit) store
  | evict {store id} : SpecStep store (.evict id, .unit) store
  | modify {store id contents} : SpecStep store (.modify id contents, .unit)
      { store with contents := Function.update store.contents id contents }
  | allocate {store id buffer contents} : SpecStep store (.allocate id buffer contents, .unit)
      { store with contents := Function.update store.contents id contents }
  | spill {store pages} : SpecStep store (.spill pages, .unit) store
  | beginWrite {store restarts} : SpecStep store (.beginWrite restarts, .unit) store
  | release {contents frame older} : frame.kind = .statement →
      SpecStep ⟨contents, frame :: older⟩ (.release, .unit) ⟨contents, older⟩
  | releaseNone {store} : (∀ frame ∈ store.stack.head?, frame.kind ≠ .statement) →
      SpecStep store (.release, .unit) store
  | releaseNamed {store name frame older} :
      findNamed Frame.kind name store.stack = some (frame, older) →
      ¬(frame.kind = .named name true ∧ older = []) →
      SpecStep store (.releaseNamed name, .released .release) { store with stack := older }
  | releaseCommit {store name frame} :
      findNamed Frame.kind name store.stack = some (frame, []) → frame.kind = .named name true →
      SpecStep store (.releaseNamed name, .released .commit) store
  | releaseNotFound {store name} : findNamed Frame.kind name store.stack = none →
      SpecStep store (.releaseNamed name, .released .notFound) store
  | rollback {contents frame older contents'} : frame.kind = .statement →
      RestoredTo frame.contents contents' →
      SpecStep ⟨contents, frame :: older⟩ (.rollback, .rolledBack true) ⟨contents', older⟩
  | rollbackNone {store} : (∀ frame ∈ store.stack.head?, frame.kind ≠ .statement) →
      SpecStep store (.rollback, .rolledBack false) store
  | rollbackNamed {store name frame older contents'} :
      findNamed Frame.kind name store.stack = some (frame, older) →
      RestoredTo frame.contents contents' →
      SpecStep store (.rollbackNamed name, .rolledBackTo (some frame.deferredFkViolations))
        ⟨contents', frame :: older⟩
  | rollbackNotFound {store name} : findNamed Frame.kind name store.stack = none →
      SpecStep store (.rollbackNamed name, .rolledBackTo none) store

/-! ## The steps of the pager -/

/-- The steps of the pager.  Callers open a savepoint with the present size of the
database, change a page only when it is cached, and never shrink the database. -/
inductive Step : Pager → Event × Response → Pager → Prop
  | open {pager kind deferredFkViolations} :
      Step pager (.open kind deferredFkViolations, .unit)
        (openSavepointWithKind kind (databaseSize pager.contents) deferredFkViolations
          (openSubjournal pager))
  | load {pager id tag} : pager.cache id = none →
      Step pager (.load id tag, .unit) (loadPage id tag pager)
  | evict {pager id page} : pager.cache id = some page → (page.dirty → page.spilled) →
      Step pager (.evict id, .unit) (evictPage id pager)
  | modify {pager id page contents} : pager.cache id = some page →
      databaseSize pager.contents ≤ databaseSize (Function.update pager.contents id contents) →
      Step pager (.modify id contents, .unit) (modifyPage id page contents pager)
  | allocate {pager id buffer contents} : databaseSize pager.contents < id →
      Step pager (.allocate id buffer contents, .unit)
        (modifyPage id ⟨buffer, false, false, none⟩ contents pager)
  | spill {pager pages} : pager.holdsWriteLock = true →
      (∀ entry ∈ pages, ∃ page, pager.cache entry.1 = some page ∧ page.contents = entry.2 ∧
        page.dirty ∧ ¬page.spilled) →
      Step pager (.spill pages, .unit) (spillPages pages pager)
  | beginWrite {pager restarts} : Step pager (.beginWrite restarts, .unit)
      (beginWriteTx restarts pager)
  | release {pager} : Step pager (.release, .unit) (releaseSavepoint pager)
  | releaseNamed {pager name} :
      Step pager (.releaseNamed name, .released (releaseNamedSavepoint name pager).1)
        (releaseNamedSavepoint name pager).2
  | rollback {pager} :
      Step pager (.rollback, .rolledBack (rollbackToNewestSavepoint pager).1)
        (rollbackToNewestSavepoint pager).2
  | rollbackNamed {pager name} :
      Step pager (.rollbackNamed name, .rolledBackTo (rollbackToNamedSavepoint name pager).1)
        (rollbackToNamedSavepoint name pager).2

/-- A pager at the start of a transaction: no savepoints, a database with at least its
first page, and a cache that agrees with the log wherever it may be dropped. -/
structure Initial (pager : Pager) : Prop where
  savepoints_eq : pager.savepoints = []
  journal_eq : pager.subjournal.getD [] = []
  size_pos : 1 ≤ databaseSize pager.contents
  coherent : ∀ {id page}, pager.cache id = some page → (page.dirty → page.spilled) →
    page.contents = pager.stored id

end Turso.Subjournal
