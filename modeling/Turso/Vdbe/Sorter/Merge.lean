import Turso.Foundation.Selection
import Turso.Vdbe.Sorter.Chunk

/-!
# Merging chunks

While chunks are merged, the records that are left are those in the heap and those that the chunks
have still to return.  `Merging` says this, and that the record of a chunk in the heap does not come
after the others of this chunk.  If all chunks that are not exhausted are represented in the heap, its
greatest entry is a least record of all (`Merging.le_of_best`).
-/

namespace Turso.Sorter

open State Sorter.Record List
open Multiset (add_cons coe_add cons_add cons_coe mem_add mem_coe)

open Std (TransCmp OrientedCmp)

variable {config : Config} {env : Environment} {s : State config} {record : Record config}
  {runs runs' : List (List (Record config))} {heap heap' : List (Record config × ℕ)}

/-! ## The order of records -/

/-- The order of the keys. -/
def Record.le (first second : Record config) : Prop :=
  (fullCmp config.locales [] config.keyInfo first.key second.key).isLE = true

instance : TransCmp (@Record.cmp config) where
  eq_swap := (@transCmp_cmp config.locales [] config.keyInfo config.keyLen nofun).eq_swap
  isLE_trans := (@transCmp_cmp config.locales [] config.keyInfo config.keyLen nofun).isLE_trans

theorem Record.cmp_swap (a b : Record config) : cmp b a = (cmp a b).swap :=
  OrientedCmp.eq_swap

theorem Record.isLE_cmp (first second : Record config) :
    (cmp first second).isLE = true ↔ le first second := by
  rw [cmp, cmp_eq_fullCmp]
  rfl

theorem Record.le_trans {first second third : Record config} (h : le first second)
    (h' : le second third) : le first third :=
  (isLE_cmp _ _).1 (TransCmp.isLE_trans ((isLE_cmp _ _).2 h) ((isLE_cmp _ _).2 h'))

theorem Record.le_total (first second : Record config) : le first second ∨ le second first := by
  rw [← isLE_cmp, ← isLE_cmp, cmp_swap first second]
  cases cmp first second <;> simp

theorem Record.le_refl (record : Record config) : le record record :=
  (le_total record record).elim id id

/-! ## The heap -/

/-- An entry of the heap. -/
def heapEntry (entry : Record config × ℕ) : BoxedSortableRecord config × ℕ :=
  (⟨entry.1.payload, .ok entry.1⟩, entry.2)

/-- `pop` returns an entry whose record does not come after the others. -/
theorem heapPop_eq (hne : heap ≠ []) :
    ∃ best others, heapPop (heap.map heapEntry) = some (heapEntry best, others.map heapEntry) ∧
      heap.Perm (best :: others) ∧ ∀ e ∈ others, le best.1 e.1 := by
  induction heap with
  | nil => exact absurd rfl hne
  | cons e heap ih =>
    by_cases hnil : heap = []
    · subst hnil
      exact ⟨e, [], rfl, .refl _, nofun⟩
    · obtain ⟨best, others, hpop, hperm, hleast⟩ := ih hnil
      rw [map_cons, heapPop, hpop]
      dsimp only
      have hcmp : (Record.cmp best.1 e.1).then (compare e.2 best.2) = .lt → le best.1 e.1 := by
        rw [← isLE_cmp]
        cases h : Record.cmp best.1 e.1 <;> simp_all
      have hcmp' : (Record.cmp best.1 e.1).then (compare e.2 best.2) ≠ .lt → le e.1 best.1 := by
        rw [← isLE_cmp, cmp_swap best.1 e.1]
        cases h : Record.cmp best.1 e.1 <;> simp_all
      split_ifs with hlt
      · refine ⟨best, e :: others, rfl, (hperm.cons e).trans (.swap _ _ _), ?_⟩
        exact forall_mem_cons.2 ⟨hcmp hlt, hleast⟩
      · refine ⟨e, best :: others, rfl, hperm.cons e, ?_⟩
        exact forall_mem_cons.2 ⟨hcmp' hlt, fun x hx =>
          le_trans (hcmp' hlt) (hleast x hx)⟩

/-! ## The records that are left -/

/-- The record is what its payload decodes to. -/
def Decodes (record : Record config) : Prop :=
  arenaSortableRecord config record.payload = .ok record

theorem Decodes.boxed (h : Decodes record) :
    boxedSortableRecord config record.payload = .ok ⟨record.payload, .ok record⟩ := by
  unfold Decodes arenaSortableRecord at h
  unfold boxedSortableRecord
  cases hcolumns : config.columns record.payload with
  | error error =>
    rw [hcolumns] at h
    cases h
  | ok columns =>
    rw [hcolumns] at h
    change decodeKey config record.payload columns = .ok record at h
    change Except.ok _ = _
    rw [h]

def payloads (records : List (Record config)) : List Bytes :=
  records.map SortableRecord.payload

variable (sorter : State config)

/-- The heap and the chunks, with the records that each chunk has still to return. -/
structure Merging (runs : List (List (Record config))) (heap : List (Record config × ℕ)) :
    Prop where
  heap_eq : sorter.chunkHeap = heap.map heapEntry
  length : sorter.chunks.length = runs.length
  chunks : ∀ (index : ℕ) (chunk : SortedChunk) (run : List (Record config)),
    sorter.chunks[index]? = some chunk → runs[index]? = some run →
      Remains sorter.file chunk (payloads run)
  sorted : ∀ run ∈ runs, run.Pairwise le
  decodes : ∀ run ∈ runs, ∀ record ∈ run, Decodes record
  bound : ∀ entry ∈ heap, entry.2 < runs.length
  heads : ∀ entry ∈ heap, ∀ run, runs[entry.2]? = some run → ∀ record ∈ run, le entry.1 record

theorem Merging.congr {x : State config} (hmerging : Merging s runs heap)
    (hheap : x.chunkHeap = s.chunkHeap) (hchunks : x.chunks = s.chunks)
    (hfile : x.file = s.file) : Merging x runs heap := by
  refine { hmerging with heap_eq := hheap.trans hmerging.heap_eq, length := ?_, chunks := ?_ }
  · rw [hchunks]
    exact hmerging.length
  · rw [hchunks, hfile]
    exact hmerging.chunks

theorem Merging.dropEntries (hmerging : Merging s runs heap) (hsubset : ∀ e ∈ heap', e ∈ heap) :
    Merging { s with chunkHeap := heap'.map heapEntry } runs heap' :=
  { hmerging with
    heap_eq := rfl
    bound := fun e he => hmerging.bound e (hsubset e he)
    heads := fun e he => hmerging.heads e (hsubset e he) }

/-- The first `pushed` chunks that are not exhausted have a record in the heap, apart from that whose
read is pending. -/
def Represented (runs : List (List (Record config))) (heap : List (Record config × ℕ))
    (pending : Option ℕ) (pushed : ℕ) : Prop :=
  ∀ index run, index < pushed → runs[index]? = some run → run ≠ [] → pending ≠ some index →
    ∃ entry ∈ heap, entry.2 = index

/-- All records that are left. -/
def remaining (runs : List (List (Record config))) (heap : List (Record config × ℕ)) :
    Multiset (Record config) :=
  heap.map Prod.fst + runs.flatten

/-- The best entry of a heap in which all chunks are represented is a least record. -/
theorem Merging.le_of_best (hmerging : Merging s runs heap)
    (hrepresented : Represented runs heap none runs.length) {best : Record config × ℕ}
    (hbest : ∀ entry ∈ heap, le best.1 entry.1) :
    ∀ record ∈ remaining runs heap, le best.1 record := by
  intro record hrecord
  rcases mem_add.1 hrecord with hheap | hruns
  · obtain ⟨entry, hentry, rfl⟩ := mem_map.1 (mem_coe.1 hheap)
    exact hbest entry hentry
  · obtain ⟨run, hrun, hm⟩ := mem_flatten.1 (mem_coe.1 hruns)
    obtain ⟨index, hindex⟩ := mem_iff_getElem?.1 hrun
    obtain ⟨entry, hentry, rfl⟩ := hrepresented index run (List.getElem?_eq_some_iff.1 hindex).1
      hindex (ne_nil_of_mem hm) (by simp)
    exact le_trans (hbest entry hentry) (hmerging.heads entry hentry run hindex record hm)

/-! ## Pushing a record of a chunk -/

/-- Every chunk is fed by its reads. -/
def Fed (env : Environment) (sorter : State config) : Prop :=
  ∀ index chunk, sorter.chunks[index]? = some chunk → FedBy env index sorter.file chunk

/-- The sorter after a change of one chunk and the heap. -/
def State.merged (index : ℕ) (chunk : SortedChunk) (heap : List (Record config × ℕ)) :
    State config :=
  { sorter with chunks := sorter.chunks.set index chunk, chunkHeap := heap.map heapEntry }

/-- What `push_to_chunk_heap` does: the first remaining record of the chunk goes to the heap, or the
chunk is exhausted, or a read of it is in flight. -/
structure Pushed (runs : List (List (Record config))) (heap : List (Record config × ℕ)) (index : ℕ)
    (chunk : SortedChunk) (io : Bool) (runs' : List (List (Record config)))
    (heap' : List (Record config × ℕ)) : Prop where
  merging : Merging (sorter.merged index chunk heap') runs' heap'
  same : ∀ old ∈ sorter.chunks[index]?, SameChunk chunk old
  inFlight : chunk.inFlight = io
  finish : io = true → chunk.nextState = .finish
  start : io = true → ∀ old ∈ sorter.chunks[index]?, old.nextState = .start
  remaining : remaining runs' heap' = remaining runs heap
  length : runs'.length = runs.length
  keeps : ∀ entry ∈ heap, entry ∈ heap'
  others : ∀ other, other ≠ index → runs'[other]? = runs[other]?
  represented : io = false → ∀ run, runs'[index]? = some run → run ≠ [] → ∃ entry ∈ heap', entry.2 = index

section Push

variable {index : ℕ} {chunk : SortedChunk} {run : List (Record config)} {i : ℕ}

theorem getElem?_set_cases {α : Type} {list : List α} {x : ℕ} {new v : α}
    (h : (list.set i new)[x]? = some v) :
    (x = i ∧ v = new) ∨ (x ≠ i ∧ list[x]? = some v) := by
  rw [getElem?_set] at h
  split_ifs at h with hsame hlen
  · exact .inl ⟨hsame.symm, (Option.some.inj h).symm⟩
  · exact .inr ⟨Ne.symm hsame, h⟩

theorem Merging.setChunk (hmerging : Merging s runs heap) (hrun : runs[index]? = some run)
    (hremains : Remains s.file chunk (payloads run)) :
    Merging (s.merged index chunk heap) runs heap where
  heap_eq := rfl
  length := length_set.trans hmerging.length
  chunks x c' run' hc' hrun' := by
    rcases getElem?_set_cases hc' with ⟨rfl, rfl⟩ | ⟨-, ho⟩
    · rw [hrun] at hrun'
      cases hrun'
      exact hremains
    · exact hmerging.chunks x c' run' ho hrun'
  sorted := hmerging.sorted
  decodes := hmerging.decodes
  bound := hmerging.bound
  heads := hmerging.heads

variable {left : List (Record config)}

/-- The first remaining record of a chunk goes to the heap. -/
theorem Merging.takeHead (hmerging : Merging s runs heap)
    (hrun : runs[index]? = some (record :: left))
    (hremains : Remains s.file chunk (payloads left)) :
    Merging (s.merged index chunk ((record, index) :: heap)) (runs.set index left)
      ((record, index) :: heap) where
  heap_eq := rfl
  length := by
    rw [length_set]
    exact length_set.trans hmerging.length
  chunks other chunk' run' hchunk' hrun' := by
    rcases getElem?_set_cases hchunk' with ⟨rfl, rfl⟩ | ⟨hne, hold⟩
    · rcases getElem?_set_cases hrun' with ⟨-, rfl⟩ | ⟨hne, -⟩
      · exact hremains
      · exact absurd rfl hne
    · rcases getElem?_set_cases hrun' with ⟨rfl, -⟩ | ⟨-, ho'⟩
      · exact absurd rfl hne
      · exact hmerging.chunks other chunk' run' hold ho'
  sorted run' hrun' := by
    rcases mem_or_eq_of_mem_set hrun' with hold | rfl
    · exact hmerging.sorted run' hold
    · exact (pairwise_cons.1 (hmerging.sorted _ (mem_of_getElem? hrun))).2
  decodes run' hrun' := by
    rcases mem_or_eq_of_mem_set hrun' with hold | rfl
    · exact hmerging.decodes run' hold
    · exact fun other hother => hmerging.decodes _ (mem_of_getElem? hrun) other
        (mem_cons_of_mem _ hother)
  bound entry hentry := by
    rw [length_set]
    rcases mem_cons.1 hentry with rfl | hold
    · exact (List.getElem?_eq_some_iff.1 hrun).1
    · exact hmerging.bound entry hold
  heads entry hentry run' hrun' other hother := by
    have hsorted := pairwise_cons.1 (hmerging.sorted _ (mem_of_getElem? hrun))
    rcases mem_cons.1 hentry with rfl | hold
    · rcases getElem?_set_cases hrun' with ⟨-, rfl⟩ | ⟨hne, -⟩
      · exact hsorted.1 other hother
      · exact absurd rfl hne
    · rcases getElem?_set_cases hrun' with ⟨hindex, rfl⟩ | ⟨-, ho'⟩
      · exact hmerging.heads entry hold _ (hindex ▸ hrun) other (mem_cons_of_mem _ hother)
      · exact hmerging.heads entry hold run' ho' other hother

/-- What is taken from a run is taken from all of them. -/
theorem flatten_set {α : Type} {runs : List (List α)} {r : α} {left : List α}
    (h : runs[i]? = some (r :: left)) :
    (runs.flatten : Multiset α) = r ::ₘ ((runs.set i left).flatten : Multiset α) := by
  induction runs generalizing i with
  | nil => cases h
  | cons run runs ih =>
    cases i with
    | zero =>
      cases h
      rfl
    | succ i =>
      have hrest := ih h
      rw [set_cons_succ, flatten_cons, flatten_cons, ← coe_add, hrest,
        add_cons, coe_add]

theorem remaining_takeHead
    (hrun : runs[index]? = some (rc :: left)) :
    remaining (runs.set index left) ((rc, index) :: heap) = remaining runs heap := by
  unfold remaining
  rw [flatten_set hrun, add_cons, map_cons, ← cons_coe, cons_add]

theorem Merging.push (hmerging : Merging s runs heap) (hfed : Fed env s)
    (hrun : runs[index]? = some run) (hidle : s.chunkInFlight index = false) :
    ∃ chunk io runs' heap', s.pushToChunkHeap env index = .ok (s.merged index chunk heap', io) ∧
      Pushed s runs heap index chunk io runs' heap' := by
  have hlt : index < s.chunks.length := by
    rw [hmerging.length]
    exact (List.getElem?_eq_some_iff.1 hrun).1
  obtain ⟨old, ho⟩ : ∃ old, s.chunks[index]? = some old :=
    ⟨s.chunks[index], getElem?_eq_getElem hlt⟩
  have hidle' : old.inFlight = false := by
    rw [chunkInFlight, ho] at hidle
    exact hidle
  obtain ⟨⟨chunk, result⟩, hnx, hsame, hadvances⟩ :=
    (hmerging.chunks index old run ho hrun).next (hfed index old ho) hidle'
  have hpush : s.pushToChunkHeap env index = s.pushResult index chunk result := by
    rw [pushToChunkHeap, ho]
    dsimp only
    rw [hnx]
    rfl
  have hsames : ∀ other ∈ s.chunks[index]?, SameChunk chunk other := by
    intro other hother
    rw [ho] at hother
    cases hother
    exact hsame
  cases result with
  | io =>
    obtain ⟨hne, hremains, hfinish, hflight⟩ := hadvances
    refine ⟨chunk, true, runs, heap, ?_, hmerging.setChunk hrun hremains, hsames, hflight,
      fun _ => hfinish, ?_, rfl, rfl, fun _ h => h, fun _ _ => rfl, by simp⟩
    · rw [hpush, merged, ← hmerging.heap_eq]
      rfl
    · intro _ other hother
      rw [ho] at hother
      cases hother
      exact nextState_of_io hnx
  | done record =>
    cases record with
    | none =>
      obtain ⟨hnil, hremains, hflight⟩ := hadvances
      have hrunNil : run = [] := map_eq_nil_iff.1 hnil
      refine ⟨chunk, false, runs, heap, ?_, hmerging.setChunk hrun ?_, hsames, hflight,
        by simp, by simp, rfl, rfl, fun _ h => h, fun _ _ => rfl, ?_⟩
      · rw [hpush, merged, ← hmerging.heap_eq]
        rfl
      · rw [hrunNil]
        exact hremains
      · intro _ run' hrun' hne
        rw [hrun] at hrun'
        cases hrun'
        exact absurd hrunNil hne
    | some payload =>
      obtain ⟨left, hcons, hremains, hflight⟩ := hadvances
      obtain ⟨record, left', rfl, rfl, rfl⟩ := map_eq_cons_iff.1 hcons
      have hdecodes := hmerging.decodes _ (mem_of_getElem? hrun) record mem_cons_self
      refine ⟨chunk, false, runs.set index left', (record, index) :: heap, ?_,
        hmerging.takeHead hrun hremains, hsames, hflight, by simp,
        by simp, remaining_takeHead hrun, length_set, fun _ h => mem_cons_of_mem _ h,
        fun other hne => getElem?_set_ne (Ne.symm hne), fun _ _ _ _ =>
          ⟨(record, index), mem_cons_self, rfl⟩⟩
      rw [hpush, pushResult, hdecodes.boxed, hmerging.heap_eq]
      rfl

theorem Pushed.fed {io : Bool} (hpushed : Pushed s runs heap index chunk io runs' heap')
    (hfed : Fed env s) : Fed env (s.merged index chunk heap') := by
  intro x c' hc'
  rcases getElem?_set_cases hc' with ⟨rfl, rfl⟩ | ⟨-, ho⟩
  · have hlt : x < s.chunks.length := by
      have hlt := (List.getElem?_eq_some_iff.1 hc').1
      exact hlt.trans_eq length_set
    have hsame := hpushed.same _ (getElem?_eq_getElem hlt)
    exact SameChunk.fedBy ⟨hsame.1.symm, hsame.2.symm⟩ (hfed x _ (getElem?_eq_getElem hlt))
  · exact hfed x c' ho

theorem chunkInFlight_iff : s.chunkInFlight i = true ↔
    ∃ chunk, s.chunks[i]? = some chunk ∧ chunk.inFlight = true :=
  Option.any_eq_true _ _

theorem Pushed.chunkInFlight {io : Bool}
    (hpushed : Pushed s runs heap index chunk io runs' heap') {x : ℕ}
    (hflight : (s.merged index chunk heap').chunkInFlight x = true) :
    (x = index ∧ io = true) ∨ (x ≠ index ∧ s.chunkInFlight x = true) := by
  obtain ⟨c', hc', hflight'⟩ := chunkInFlight_iff.1 hflight
  rcases getElem?_set_cases hc' with ⟨rfl, rfl⟩ | ⟨hne, ho⟩
  · exact .inl ⟨rfl, hpushed.inFlight ▸ hflight'⟩
  · exact .inr ⟨hne, chunkInFlight_iff.2 ⟨c', ho, hflight'⟩⟩

end Push

/-! ## Serving records from the chunks -/

/-- The sorter serves records from its chunks: all that are not exhausted are represented in the heap,
apart from the one whose prefetch is pending; only this one can have a read in flight. -/
structure Serving (runs : List (List (Record config))) (heap : List (Record config × ℕ)) :
    Prop where
  merging : Merging sorter runs heap
  represented : Represented runs heap sorter.pendingCompletion runs.length
  flight : ∀ index, sorter.chunkInFlight index = true → sorter.pendingCompletion = some index
  finish : ∀ index, sorter.pendingCompletion = some index →
    ∃ chunk, sorter.chunks[index]? = some chunk ∧ chunk.nextState = .finish

/-- A heap in which all chunks are represented is only empty if nothing is left. -/
theorem remaining_eq_zero (hrepresented : Represented runs [] none runs.length) :
    remaining runs [] = 0 := by
  refine Multiset.eq_zero_of_forall_notMem fun r hr => ?_
  rcases mem_add.1 hr with hheap | hruns
  · exact absurd hheap (Multiset.notMem_zero r)
  · obtain ⟨run, hrun, hm⟩ := mem_flatten.1 (mem_coe.1 hruns)
    obtain ⟨i, hi⟩ := mem_iff_getElem?.1 hrun
    obtain ⟨e, he, -⟩ := hrepresented i run (List.getElem?_eq_some_iff.1 hi).1
      hi (ne_nil_of_mem hm) (by simp)
    exact absurd he not_mem_nil

/-- After a push all chunks are represented again, or the read of this one is pending. -/
theorem Pushed.serving {index : ℕ} {chunk : SortedChunk} {io : Bool}
    (hpushed : Pushed s runs heap index chunk io runs' heap')
    (hrepresented : Represented runs heap (some index) runs.length) (hindex : index < runs.length)
    (hidle : ∀ other, s.chunkInFlight other = false)
    (hpending : s.pendingCompletion = none) :
    Serving (if io then { s.merged index chunk heap' with pendingCompletion := some index }
      else s.merged index chunk heap') runs' heap' := by
  have hflight : ∀ other, (s.merged index chunk heap').chunkInFlight other = true →
      other = index ∧ io = true := by
    intro other hother
    rcases hpushed.chunkInFlight hother with hsame | ⟨-, ho⟩
    · exact hsame
    · rw [hidle other] at ho
      cases ho
  have hrest : ∀ other run, other ≠ index → runs'[other]? = some run → run ≠ [] →
      ∃ entry ∈ heap', entry.2 = other := by
    intro other run hne hrun hnonempty
    rw [hpushed.others other hne] at hrun
    obtain ⟨entry, hentry, hsame⟩ := hrepresented other run (List.getElem?_eq_some_iff.1 hrun).1 hrun
      hnonempty (fun h => hne (Option.some.inj h).symm)
    exact ⟨entry, hpushed.keeps entry hentry, hsame⟩
  cases io with
  | true =>
    refine ⟨hpushed.merging.congr rfl rfl rfl, ?_, fun other hother => ?_, fun other hother => ?_⟩
    · exact fun other run _ hrun hnonempty hne => hrest other run (fun h => hne (h ▸ rfl)) hrun
        hnonempty
    · rw [(hflight other hother).1]
      rfl
    · cases hother
      refine ⟨chunk, getElem?_set_self ?_, hpushed.finish rfl⟩
      have hlen := hpushed.merging.length
      rw [merged, length_set, hpushed.length] at hlen
      exact hindex.trans_eq hlen.symm
  | false =>
    refine ⟨hpushed.merging, ?_, fun other hother => ?_, fun other hother => ?_⟩
    · intro other run _ hrun hnonempty _
      by_cases hother : other = index
      · exact hother ▸ hpushed.represented rfl run (hother ▸ hrun) hnonempty
      · exact hrest other run hother hrun hnonempty
    · cases (hflight other hother).2
    · change s.pendingCompletion = some other at hother
      rw [hpending] at hother
      cases hother

/-- What `next_from_chunk_heap` can do with a number of chunks when it does not wait: nothing is left,
or a least record is taken. -/
inductive Popped (rest : Multiset (Record config)) (count : ℕ) :
    State config → Option (BoxedSortableRecord config) → Prop
  | exhausted (next : State config) (hempty : rest = 0) (hcount : next.chunks.length = count) :
      Popped rest count next none
  | record (next : State config) (best : Record config) (runs : List (List (Record config)))
      (heap : List (Record config × ℕ)) (hserving : Serving next runs heap)
      (hrest : rest = best ::ₘ remaining runs heap)
      (hleast : ∀ record ∈ remaining runs heap, le best record)
      (hcount : next.chunks.length = count) :
      Popped rest count next (some ⟨best.payload, .ok best⟩)

theorem Merging.pop (hmerging : Merging s runs heap) (hfed : Fed env s)
    (hrepresented : Represented runs heap none runs.length)
    (hidle : ∀ index, s.chunkInFlight index = false)
    (hpending : s.pendingCompletion = none) :
    ∃ next result, s.popFromChunkHeap env = .ok (next, result) ∧
      Popped (remaining runs heap) runs.length next result := by
  by_cases hnil : heap = []
  · subst hnil
    refine ⟨s, none, ?_, .exhausted s (remaining_eq_zero hrepresented) hmerging.length⟩
    rw [popFromChunkHeap, hmerging.heap_eq]
    rfl
  · obtain ⟨best, others, hpop, hperm, hbest⟩ := heapPop_eq hnil
    have hothers : ∀ entry ∈ others, entry ∈ heap := fun entry hentry =>
      hperm.symm.subset (mem_cons_of_mem _ hentry)
    have hlt := hmerging.bound best (hperm.symm.subset mem_cons_self)
    have hrun := getElem?_eq_getElem hlt
    obtain ⟨chunk, io, runs', heap', hpush, hpushed⟩ :=
      (hmerging.dropEntries hothers).push hfed hrun (hidle best.2)
    have hrest : remaining runs heap = best.1 ::ₘ remaining runs' heap' := by
      rw [hpushed.remaining, remaining, remaining, ← cons_add, cons_coe,
        ← map_cons]
      congr 1
      exact Multiset.coe_eq_coe.2 (hperm.map Prod.fst)
    -- the popped record is a least one
    have hleast : ∀ record ∈ remaining runs' heap', le best.1 record := by
      intro record hrecord
      refine hmerging.le_of_best hrepresented (fun entry hentry => ?_) record ?_
      · rcases mem_cons.1 (hperm.subset hentry) with rfl | hother
        · exact le_refl _
        · exact hbest entry hother
      · rw [hrest]
        exact Multiset.mem_cons_of_mem hrecord
    have hstep : s.popFromChunkHeap env = .ok ((if io then
          { merged { s with chunkHeap := others.map heapEntry } best.2 chunk heap' with
            pendingCompletion := some best.2 }
          else merged { s with chunkHeap := others.map heapEntry } best.2 chunk heap'),
          some ⟨best.1.payload, .ok best.1⟩) := by
      rw [popFromChunkHeap, hmerging.heap_eq, hpop]
      dsimp only [heapEntry]
      rw [hpush]
      rfl
    have hserving := hpushed.serving (fun other run hlt' hrun' hnonempty hne => ?_) hlt hidle hpending
    · exact ⟨_, _, hstep, .record _ best.1 runs' heap' hserving hrest hleast
        (hserving.merging.length.trans hpushed.length)⟩
    · obtain ⟨entry, hentry, hsame⟩ := hrepresented other run hlt' hrun' hnonempty (by simp)
      rcases mem_cons.1 (hperm.subset hentry) with rfl | hother
      · exact absurd (by rw [hsame]) hne
      · exact ⟨entry, hother, hsame⟩

/-- `next_from_chunk_heap` waits for a pending read, or finds that nothing is left, or takes a least
record. -/
theorem Serving.nextFromChunkHeap (hserving : Serving s runs heap) (hfed : Fed env s) :
    (∃ i, s.pendingCompletion = some i ∧ s.chunkInFlight i = true ∧
        s.nextFromChunkHeap env = .ok (s, .io)) ∨
      ∃ next result, s.nextFromChunkHeap env = .ok (next, .done result) ∧
        Popped (remaining runs heap) runs.length next result := by
  cases hpending : s.pendingCompletion with
  | none =>
    have hrepresented := hserving.represented
    rw [hpending] at hrepresented
    have hidle : ∀ i, s.chunkInFlight i = false := by
      refine fun i => Bool.eq_false_iff.2 fun hflight => ?_
      rw [hserving.flight i hflight] at hpending
      cases hpending
    obtain ⟨next, result, hpop, hpopped⟩ := hserving.merging.pop hfed hrepresented hidle hpending
    refine .inr ⟨next, result, ?_, hpopped⟩
    rw [State.nextFromChunkHeap, hpending]
    rw [hpop]
    rfl
  | some i =>
    by_cases hflight : s.chunkInFlight i = true
    · refine .inl ⟨i, rfl, hflight, ?_⟩
      rw [State.nextFromChunkHeap, hpending]
      dsimp only
      rw [if_pos hflight]
    · -- the read has ended, and the record that was parsed before goes to the heap
      have hidle : ∀ x, s.chunkInFlight x = false := by
        refine fun x => Bool.eq_false_iff.2 fun hx => ?_
        have hsame := hserving.flight x hx
        rw [hpending] at hsame
        cases hsame
        exact hflight hx
      obtain ⟨old, ho, hfinish⟩ := hserving.finish i hpending
      have hi : i < runs.length := hserving.merging.length ▸ (List.getElem?_eq_some_iff.1 ho).1
      have hmerging : Merging { s with pendingCompletion := none } runs heap :=
        hserving.merging.congr rfl rfl rfl
      obtain ⟨c, io, runs', heap', hpush, hpushed⟩ :=
        hmerging.push hfed (getElem?_eq_getElem hi) (hidle i)
      have hio : io = false := by
        cases io with
        | false => rfl
        | true =>
          rw [hpushed.start rfl old ho] at hfinish
          cases hfinish
      subst hio
      have hrepresented := hserving.represented
      rw [hpending] at hrepresented
      have hserving' := hpushed.serving hrepresented hi hidle rfl
      rw [if_neg (by simp)] at hserving'
      have hidle' : ∀ x, (merged { s with pendingCompletion := none } i c
          heap').chunkInFlight x = false := by
        refine fun x => Bool.eq_false_iff.2 fun hx => ?_
        cases hserving'.flight x hx
      obtain ⟨next, result, hpop, hpopped⟩ := hserving'.merging.pop (hpushed.fed hfed)
        hserving'.represented hidle' rfl
      rw [hpushed.remaining, hpushed.length] at hpopped
      refine .inr ⟨next, result, ?_, hpopped⟩
      rw [State.nextFromChunkHeap, hpending]
      dsimp only
      rw [if_neg hflight, hpush]
      change Except.map _ _ = _
      rw [hpop]
      rfl

/-! ## Filling the heap -/

/-- `init_chunk_heap` has pushed a number of chunks. -/
structure Filling (runs : List (List (Record config))) (heap : List (Record config × ℕ))
    (pushed : ℕ) : Prop where
  merging : Merging sorter runs heap
  represented : Represented runs heap none pushed
  pending : sorter.pendingCompletion = none
  state : sorter.initChunkHeapState = .pushChunk pushed

/-- Whether a chunk is at the start of `next`, as a number. -/
def startBit (index : ℕ) : ℕ :=
  if sorter.chunks[index]?.any (·.nextState = .start) then 1 else 0

theorem startBit_le (s : State config) (i : ℕ) : startBit s i ≤ 1 := by
  unfold startBit
  split_ifs <;> omega

theorem startBit_eq {c : SortedChunk} (hc : s.chunks[i]? = some c) :
    startBit s i = if c.nextState = .start then 1 else 0 := by
  rw [startBit, hc]
  cases h : c.nextState <;> simp [h]

/-- What the loop of `init_chunk_heap` can do from a chunk on: it fills the heap, or it gets to a chunk
whose read is in flight. -/
inductive Filled (env : Environment) (rest : Multiset (Record config)) (sorter : State config)
    (index : ℕ) : State config → IOResult Unit → Prop
  | done (final : State config) (runs : List (List (Record config)))
      (heap : List (Record config × ℕ)) (hserving : Serving final runs heap)
      (hrest : remaining runs heap = rest) (hfed : Fed env final)
      (hpending : final.pendingCompletion = none)
      (hchunks : final.chunks.length = sorter.chunks.length) :
      Filled env rest sorter index final (.done ())
  | io (final : State config) (runs : List (List (Record config)))
      (heap : List (Record config × ℕ)) (pushed : ℕ) (hfilling : Filling final runs heap pushed)
      (hrest : remaining runs heap = rest) (hpushed : pushed < final.chunks.length)
      (hchunks : final.chunks.length = sorter.chunks.length)
      (hsort : final.sortState = sorter.sortState)
      (hprogress : 2 * (final.chunks.length - pushed) + startBit final pushed <
        2 * (sorter.chunks.length - index) + startBit sorter index) :
      Filled env rest sorter index final .io

theorem Filling.pushChunks (left : ℕ) {index : ℕ} (hfilling : Filling s runs heap index)
    (hfed : Fed env s)
    (hidle : ∀ other, s.chunkInFlight other = false) (hleft : index + left = runs.length) :
    ∃ final result, pushChunks env left index s = .ok (final, result) ∧
      Filled env (remaining runs heap) s index final result := by
  induction left generalizing s runs heap index with
  | zero =>
    have hserving : Serving { s with initChunkHeapState := .start } runs heap := by
      refine ⟨hfilling.merging.congr rfl rfl rfl, ?_, fun other hother => ?_,
        fun other hother => ?_⟩
      · have hrepresented := hfilling.represented
        rw [← hfilling.pending, show index = runs.length from hleft] at hrepresented
        exact hrepresented
      · exact absurd hother (by rw [Bool.not_eq_true]; exact hidle other)
      · exact absurd (hfilling.pending.symm.trans hother) (by simp)
    exact ⟨_, _, rfl, .done _ runs heap hserving rfl hfed hfilling.pending rfl⟩
  | succ left ih =>
    have hindex : index < runs.length := by omega
    obtain ⟨chunk, io, runs', heap', hpush, hpushed⟩ :=
      hfilling.merging.push hfed (getElem?_eq_getElem hindex) (hidle index)
    have hlen : (s.merged index chunk heap').chunks.length = s.chunks.length := length_set
    have hlt : index < s.chunks.length := by
      rw [hfilling.merging.length]
      exact hindex
    have ho := getElem?_eq_getElem hlt
    have hnew : (s.merged index chunk heap').chunks[index]? = some chunk := getElem?_set_self hlt
    -- the chunks before this one are still represented
    have hb : ∀ other run, other < index → runs'[other]? = some run → run ≠ [] →
        ∃ entry ∈ heap', entry.2 = other := by
      intro other run hlt hrun hnonempty
      rw [hpushed.others other hlt.ne] at hrun
      obtain ⟨entry, hentry, hsame⟩ := hfilling.represented other run hlt hrun hnonempty (by simp)
      exact ⟨entry, hpushed.keeps entry hentry, hsame⟩
    cases io with
    | true =>
      refine ⟨_, .io, ?_, .io _ runs' heap' index ⟨hpushed.merging, ?_, hfilling.pending,
        hfilling.state⟩ hpushed.remaining ?_ hlen rfl ?_⟩
      · rw [pushChunks, hpush]
        rfl
      · exact fun other run hlt hrun hnonempty _ => hb other run hlt hrun hnonempty
      · rw [hlen]
        exact hlt
      · rw [hlen, startBit_eq hnew, startBit_eq ho, hpushed.finish rfl, hpushed.start rfl _ ho]
        simp
    | false =>
      have hfilling' : Filling { s.merged index chunk heap' with
          initChunkHeapState := .pushChunk (index + 1) } runs' heap' (index + 1) := by
        refine ⟨hpushed.merging.congr rfl rfl rfl, ?_, hfilling.pending, rfl⟩
        intro other run hlt hrun hnonempty _
        rcases Nat.lt_succ_iff_lt_or_eq.1 hlt with hless | rfl
        · exact hb other run hless hrun hnonempty
        · exact hpushed.represented rfl run hrun hnonempty
      have hidle' : ∀ other, chunkInFlight { s.merged index chunk heap' with
          initChunkHeapState := .pushChunk (index + 1) } other = false := by
        refine fun other => Bool.eq_false_iff.2 fun hother => ?_
        rcases hpushed.chunkInFlight hother with ⟨-, hio⟩ | ⟨-, hflight⟩
        · cases hio
        · rw [hidle other] at hflight
          cases hflight
      obtain ⟨final, result, hrun, hfilled⟩ := ih hfilling' (hpushed.fed hfed) hidle'
        (by rw [hpushed.length]; omega)
      rw [hpushed.remaining] at hfilled
      refine ⟨final, result, ?_, ?_⟩
      · rw [pushChunks, hpush]
        exact hrun
      · cases hfilled with
        | done runs'' heap'' hserving hrest hfed' hpending hchunks =>
          exact .done _ runs'' heap'' hserving hrest hfed' hpending (hchunks.trans hlen)
        | io runs'' heap'' pushed hfilling'' hrest hpushed' hchunks hsort hprogress =>
          refine .io _ runs'' heap'' pushed hfilling'' hrest hpushed' (hchunks.trans hlen)
            hsort (hprogress.trans_le ?_)
          have hbit := startBit_le { s.merged index chunk heap' with
            initChunkHeapState := .pushChunk (index + 1) } (index + 1)
          have hlen' : (chunks { s.merged index chunk heap' with
            initChunkHeapState := .pushChunk (index + 1) }).length = s.chunks.length :=
            hlen
          omega

end Turso.Sorter
