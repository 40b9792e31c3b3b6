import Turso.Foundation.Simulation
import Turso.Vdbe.Sorter.Collect
import Mathlib.Data.Prod.Lex

/-!
# External sort is exact

A caller inserts records, sorts them and takes one after the other, while IO ends in any order.  As
long as each read of a chunk gets at least to the end of the record in which it begins, every call
succeeds, the caller is finished after finitely many steps, and it then has a sorted permutation of
what it inserted, the stable one if everything was sorted in memory.
-/

namespace Turso.Sorter

open List Simulation Query
open SortedChunk (inFlight)
open Prod.Lex (toLex_lt_toLex)

variable {config : Config} {env : Environment}
variable {output : List Bytes} {payload : Bytes} {waiting : Bool}
variable {sorter : State config} {runs : List (List (Record config))}
  {heap : List (Record config × ℕ)}

/-! ## Calls of `next` -/

/-- What a call of `next` that does not yield moves to. -/
inductive Moved (rest : Multiset (Record config)) (count : ℕ) (next : State config) : Prop
  | exhausted (hcurrent : next.current = none) (hempty : rest = 0)
      (hcount : next.chunks.length = count)
  | record (best : Record config) (runs : List (List (Record config)))
      (heap : List (Record config × ℕ)) (hcurrent : next.current = some best.payload)
      (hserving : Serving next runs heap) (hrest : rest = best ::ₘ remaining runs heap)
      (hleast : ∀ record ∈ remaining runs heap, Record.le best record)
      (hcount : next.chunks.length = count)

theorem Serving.congr {x : State config} (hserving : Serving sorter runs heap)
    (hheap : x.chunkHeap = sorter.chunkHeap) (hchunks : x.chunks = sorter.chunks)
    (hfile : x.file = sorter.file)
    (hpending : x.pendingCompletion = sorter.pendingCompletion) : Serving x runs heap := by
  refine ⟨hserving.merging.congr hheap hchunks hfile, ?_, fun i => ?_, ?_⟩
  · rw [hpending]
    exact hserving.represented
  · rw [hpending, State.chunkInFlight, hchunks]
    exact hserving.flight i
  · rw [hpending, hchunks]
    exact hserving.finish

theorem Moved.congr {rest : Multiset (Record config)} {n : ℕ} {next other : State config}
    (hmoved : Moved rest n next) (hcurrent : other.current = next.current)
    (hheap : other.chunkHeap = next.chunkHeap) (hchunks : other.chunks = next.chunks)
    (hfile : other.file = next.file) (hpending : other.pendingCompletion = next.pendingCompletion) :
    Moved rest n other := by
  cases hmoved with
  | exhausted hno hempty hn =>
    exact .exhausted (hcurrent.trans hno) hempty (by rw [hchunks, hn])
  | record best runs heap hsome hserving hrest hleast hn =>
    exact .record best runs heap (hcurrent.trans hsome)
      (hserving.congr hheap hchunks hfile hpending) hrest hleast (by rw [hchunks, hn])

section
variable (hserving : Serving sorter runs heap) (hfed : Fed env sorter)
  (hchunks : sorter.chunks ≠ [])
include hserving hfed hchunks

/-- `next` yields if a read is in flight, and otherwise moves on. -/
theorem Serving.next :
    (∃ index, sorter.pendingCompletion = some index ∧ sorter.chunkInFlight index = true ∧
        sorter.next env = .ok (sorter, .io)) ∨
      ∃ next, sorter.next env = .ok (next, .done ()) ∧
        Moved (remaining runs heap) sorter.chunks.length next := by
  rw [hserving.merging.length]
  unfold State.next
  rw [if_neg hchunks]
  rcases hserving.nextFromChunkHeap hfed with
    ⟨index, hpending, hflight, hnext⟩ | ⟨served, result, hnext, hpopped⟩
  · refine .inl ⟨index, hpending, hflight, ?_⟩
    rw [hnext]
    rfl
  · rw [hnext]
    refine .inr ?_
    cases hpopped with
    | exhausted hempty hn => exact ⟨_, rfl, .exhausted rfl hempty hn⟩
    | record best runs' heap' hserving' hrest hleast hn =>
      exact ⟨_, rfl, .record best runs' heap' rfl (hserving'.congr rfl rfl rfl rfl) hrest hleast hn⟩

/-- The last part of `sort`. -/
theorem Serving.sortNext (hpending : sorter.pendingCompletion = none) :
    ∃ next, sorter.sortNext env = .ok (next, .done ()) ∧
      Moved (remaining runs heap) sorter.chunks.length next := by
  have hserving' : Serving { sorter with sortState := .next } runs heap :=
    hserving.congr rfl rfl rfl rfl
  rcases hserving'.next hfed hchunks with ⟨index, hsome, -⟩ | ⟨next, hnext, hmoved⟩
  · rw [hpending] at hsome
    cases hsome
  · refine ⟨{ next with sortState := .start }, ?_, hmoved.congr rfl rfl rfl rfl rfl⟩
    rw [State.sortNext, hnext]
    rfl

end

/-! ## Calls of `sort` -/

/-- What a call of `sort` over chunks can do: it moves to the first record, or the heap is being
filled. -/
inductive Sorted (rest : Multiset (Record config)) (left : ℕ) :
    State config → IOResult Unit → Prop
  | done (next : State config) (count : ℕ) (hmoved : Moved rest (count + 1) next) :
      Sorted rest left next (.done ())
  | io (next : State config) (runs : List (List (Record config)))
      (heap : List (Record config × ℕ)) (pushed : ℕ) (hfilling : Filling next runs heap pushed)
      (hrest : remaining runs heap = rest) (hpushed : pushed < next.chunks.length)
      (hsort : next.sortState = .initHeap)
      (hprogress : 2 * (next.chunks.length - pushed) + startBit next pushed < left) :
      Sorted rest left next .io

variable {c : SortedChunk}

theorem Idle.ioState (hidle : Idle sorter)
    (hc : c ∈ sorter.chunks) : c.inFlight = false := by
  obtain ⟨i, hi⟩ := mem_iff_getElem?.1 hc
  have hflight := hidle i
  rw [State.chunkInFlight, hi] at hflight
  exact hflight

theorem Idle.any_eq_false (hidle : Idle sorter) {s : ChunkIOState}
    (hs : s = .waitingForRead ∨ s = .waitingForWrite) :
    sorter.chunks.any (·.ioState = s) = false := by
  rw [List.any_eq_false]
  intro c hc heq
  have hflight := hidle.ioState hc
  rw [decide_eq_true_eq] at heq
  rw [inFlight, heq, decide_eq_false_iff_not] at hflight
  exact hflight hs

theorem Filling.sortInitHeap {pushed : ℕ} (hfilling : Filling sorter runs heap pushed)
    (hfed : Fed env sorter) (hidle : Idle sorter) (hpushed : pushed < sorter.chunks.length)
    (hsort : sorter.sortState = .initHeap) :
    ∃ next result, sorter.sortInitHeap env = .ok (next, result) ∧ Sorted (remaining runs heap)
        (2 * (sorter.chunks.length - pushed) + startBit sorter pushed) next result := by
  have hlen := hfilling.merging.length
  obtain ⟨final, result, hrun, hfilled⟩ := hfilling.pushChunks (sorter.chunks.length - pushed) hfed
    hidle (by omega)
  have hinit : sorter.initChunkHeap env = .ok (final, result) := by
    rw [State.initChunkHeap, hfilling.state]
    rw [hidle.any_eq_false (.inl rfl)]
    exact hrun
  rw [State.sortInitHeap, hidle.any_eq_false (.inr rfl), hinit]
  cases hfilled with
  | io runs' heap' pushed' hfilling' hrest hpushed' hchunks hsort' hprogress =>
    exact ⟨_, _, rfl, .io _ runs' heap' pushed' hfilling' hrest hpushed' (hsort'.trans hsort)
      hprogress⟩
  | done runs' heap' hserving hrest hfed' hpending hchunks =>
    have hne : final.chunks ≠ [] := ne_nil_of_length_pos (by omega)
    obtain ⟨next, hnx, hmoved⟩ := hserving.sortNext hfed' hne hpending
    refine ⟨next, _, hnx, .done _ (sorter.chunks.length - 1) ?_⟩
    rwa [hrest, hchunks, show sorter.chunks.length = sorter.chunks.length - 1 + 1 by omega] at hmoved

theorem Collecting.sortInitHeap (hcollecting : Collecting sorter runs) (hfed : Fed env sorter)
    (hidle : Idle sorter) (hrs : sorter.records = []) (hchunks : sorter.chunks ≠ [])
    (hsort : sorter.sortState = .initHeap) :
    ∃ next, sorter.sortInitHeap env = .ok (next, .io) ∧ Filling next runs [] 0 ∧
      remaining runs [] = collected sorter runs ∧ 0 < next.chunks.length ∧
      next.sortState = .initHeap := by
  obtain ⟨next, hnx, hfilling, hlen, hsame⟩ := hcollecting.initChunkHeap hrs hfed
  refine ⟨next, ?_, hfilling, ?_, ?_, hsame.trans hsort⟩
  · rw [State.sortInitHeap, hidle.any_eq_false (.inr rfl), hnx]
    rfl
  · rw [collected, hrs, add_comm]
    rfl
  · rw [hlen]
    exact length_pos_iff.2 hchunks

/-! ## The invariant of a caller -/

/-- How far a caller that still inserts `todo` has come. -/
def fillingRank (sorter : State config) (todo : List (Record config)) : ℕ ×ₗ ℕ :=
  match todo with
  | [] => toLex (4, 0)
  | _ :: rest => toLex (5, 2 * rest.length + if sorter.insertState = .start then 1 else 0)

/-- The states of a caller that inserts `all`.  The rank gets smaller with each call. -/
inductive Inv (all : List (Record config)) : ℕ ×ₗ ℕ → Query config → Prop
  | collecting (sorter : State config) (runs : List (List (Record config)))
      (todo : List (Record config)) (waiting : Bool) (hcollecting : Collecting sorter runs)
      (hsort : sorter.sortState = .start) (hall : collected sorter runs + todo = all)
      (horder : sorter.chunks = [] → sorter.records ++ todo = all)
      (hvalid : ∀ record ∈ todo, Valid record) (hidle : waiting = false → Idle sorter) :
      Inv all (fillingRank sorter todo) ⟨sorter, payloads todo, .filling, waiting, []⟩
  | flushed (sorter : State config) (runs : List (List (Record config)))
      (hcollecting : Collecting sorter runs) (hsort : sorter.sortState = .initHeap)
      (hrecords : sorter.records = []) (hchunks : sorter.chunks ≠ [])
      (hall : collected sorter runs = all) :
      Inv all (toLex (3, 0)) ⟨sorter, [], .filling, true, []⟩
  | pushing (sorter : State config) (runs : List (List (Record config)))
      (heap : List (Record config × ℕ)) (pushed : ℕ) (hfilling : Filling sorter runs heap pushed)
      (hsort : sorter.sortState = .initHeap) (hpushed : pushed < sorter.chunks.length)
      (hall : remaining runs heap = all) :
      Inv all (toLex (2, 2 * (sorter.chunks.length - pushed) + startBit sorter pushed))
        ⟨sorter, [], .filling, true, []⟩
  | memory (sorter : State config) (output : List (Record config)) (hchunks : sorter.chunks = [])
      (hall : output ++ sorter.records = sortRecords all) :
      Inv all (toLex (1, 2 * sorter.records.length))
        ⟨sorter, [], .reading, false, payloads output⟩
  | serving (sorter : State config) (runs : List (List (Record config)))
      (heap : List (Record config × ℕ)) (output : List (Record config)) (waiting : Bool)
      (hserving : Serving sorter runs heap) (hchunks : sorter.chunks ≠ [])
      (hselected : Selected Record.le output (remaining runs heap))
      (hall : output + remaining runs heap = all) :
      Inv all (toLex (1, 2 * (remaining runs heap).card + if waiting then 0 else 1))
        ⟨sorter, [], .reading, waiting, payloads output⟩
  | finished (sorter : State config) (output : List (Record config)) (hperm : output.Perm all)
      (hsorted : output.Pairwise Record.le)
      (hstable : sorter.chunks = [] → output = sortRecords all) :
      Inv all (toLex (0, 0)) ⟨sorter, [], .finished, false, payloads output⟩

section Steps

variable {all : List (Record config)} {rank : ℕ ×ₗ ℕ} {query : Query config}
  (rs : List (Record config))

theorem inv_start (hvalid : ∀ r ∈ rs, Valid r) :
    Inv rs (fillingRank (.new config) rs) (start config (payloads rs)) := by
  have hcollecting : Collecting (State.new config) [] :=
    ⟨rfl, rfl, rfl, rfl, nofun, nofun, nofun, nofun, nofun⟩
  refine .collecting _ [] rs false hcollecting rfl ?_ (fun _ => rfl) hvalid (fun _ _ => rfl)
  exact zero_add _

/-- Nothing is in flight when a caller calls. -/
theorem idle_of_enabled (henabled : query.Enabled .call) (hwaiting : query.waiting = true) :
    Idle query.sorter := by
  intro i
  rw [Bool.eq_false_iff]
  intro hflight
  obtain ⟨c, hc, hflight'⟩ := chunkInFlight_iff.1 hflight
  rw [henabled.2 hwaiting c (mem_of_getElem? hc)] at hflight'
  cases hflight'

theorem payloads_concat (r : Record config) :
    payloads rs ++ [r.payload] = payloads (rs ++ [r]) := by
  simp [payloads]

/-- The caller takes what the sorter over chunks has moved to. -/
theorem Moved.take {rest : Multiset (Record config)} {n : ℕ}
    (hmoved : Moved rest (n + 1) sorter) {output : List (Record config)}
    (hselected : Selected Record.le output rest) (hall : output + rest = all)
    (phase : Phase) (waiting : Bool) (old : State config) :
    ∃ rank', Inv all rank' (Query.take ⟨old, [], phase, waiting, payloads output⟩ sorter) ∧
      rank' < toLex (1, 2 * rest.card + if waiting then 0 else 1) := by
  cases hmoved with
  | exhausted hcurrent hempty hn =>
    subst hempty
    refine ⟨toLex (0, 0), ?_, ?_⟩
    · rw [Query.take, hcurrent]
      refine .finished sorter output (Multiset.coe_eq_coe.1 (by simpa using hall))
        hselected.sorted fun hnil => ?_
      rw [hnil] at hn
      cases hn
    · exact toLex_lt_toLex.2 (.inl Nat.zero_lt_one)
  | record best runs heap hcurrent hserving hrest hleast hn =>
    subst hrest
    refine ⟨toLex (1, 2 * (remaining runs heap).card + 1), ?_, ?_⟩
    · rw [Query.take, hcurrent]
      dsimp only
      rw [payloads_concat]
      refine .serving sorter runs heap (output ++ [best]) false hserving ?_
        (hselected.take hleast) ?_
      · exact ne_nil_of_length_pos (by omega)
      · rw [← hall, ← Multiset.coe_add, add_assoc]
        rfl
    · refine toLex_lt_toLex.2 (.inr ⟨rfl, ?_⟩)
      rw [Multiset.card_cons]
      split_ifs <;> omega

/-- What `next` moves to when all records are in memory. -/
inductive MovedInMemory (records : List (Record config)) (next : State config) : Prop
  | exhausted (hcurrent : next.current = none) (hempty : records = []) (hchunks : next.chunks = [])
  | record (first : Record config) (hcurrent : next.current = some first.payload)
      (hrecords : records = first :: next.records) (hchunks : next.chunks = [])

theorem next_in_memory (hchunks : sorter.chunks = []) :
    ∃ next, sorter.next env = .ok (next, .done ()) ∧ MovedInMemory sorter.records next := by
  unfold State.next
  rw [if_pos hchunks]
  cases hrs : sorter.records with
  | nil => exact ⟨_, rfl, .exhausted rfl rfl hchunks⟩
  | cons a rest => exact ⟨_, rfl, .record a rfl rfl hchunks⟩

theorem sortNext_in_memory (hchunks : sorter.chunks = []) :
    ∃ next, sorter.sortNext env = .ok (next, .done ()) ∧ MovedInMemory sorter.records next := by
  have hchunks' : State.chunks { sorter with sortState := .next } = [] := hchunks
  obtain ⟨next, hnx, hmoved⟩ := @next_in_memory config env _ hchunks'
  refine ⟨{ next with sortState := .start }, ?_, ?_⟩
  · rw [State.sortNext, hnx]
    rfl
  · cases hmoved with
    | exhausted hcurrent hempty hnil => exact .exhausted hcurrent hempty hnil
    | record a hcurrent hrs hnil => exact .record a hcurrent hrs hnil

theorem MovedInMemory.take {rs output : List (Record config)}
    (hmoved : MovedInMemory rs sorter) (hall : output ++ rs = sortRecords all)
    (phase : Phase) (waiting : Bool) (old : State config) :
    ∃ rank', Inv all rank' (Query.take ⟨old, [], phase, waiting, payloads output⟩ sorter) ∧
      rank' < toLex (1, 2 * rs.length) := by
  cases hmoved with
  | exhausted hcurrent hempty hchunks =>
    subst hempty
    rw [append_nil] at hall
    refine ⟨toLex (0, 0), ?_, toLex_lt_toLex.2 (.inl Nat.zero_lt_one)⟩
    rw [Query.take, hcurrent]
    refine .finished sorter output ?_ ?_ fun _ => hall
    · rw [hall]
      exact sortRecords_perm all
    · rw [hall]
      exact sortRecords_sorted all
  | record a hcurrent hrs hchunks =>
    subst hrs
    refine ⟨toLex (1, 2 * sorter.records.length), ?_, toLex_lt_toLex.2 (.inr ⟨rfl, ?_⟩)⟩
    · rw [Query.take, hcurrent]
      dsimp only
      rw [payloads_concat]
      exact .memory sorter (output ++ [a]) hchunks (by rw [← hall]; simp)
    · rw [length_cons]
      omega

variable {res : IOResult Unit} {next : State config}

theorem call_insert {rest : List Bytes} :
    sorter.insert env payload = .ok (next, res) →
    call env ⟨sorter, payload :: rest, .filling, waiting, output⟩ =
      match res with
      | .io => .ok ⟨next, payload :: rest, .filling, true, output⟩
      | .done () => .ok ⟨next, rest, .filling, false, output⟩ := by
  intro hinsert
  change (sorter.insert env payload >>= _) = _
  rw [hinsert]
  cases res <;> rfl

theorem call_sort : sorter.sort env = .ok (next, res) →
    call env ⟨sorter, [], .filling, waiting, output⟩ =
      match res with
      | .io => .ok ⟨next, [], .filling, true, output⟩
      | .done () => .ok (take ⟨sorter, [], .filling, waiting, output⟩ next) := by
  intro hsort
  change (sorter.sort env >>= _) = _
  rw [hsort]
  cases res <;> rfl

theorem call_next {input : List Bytes} :
    sorter.next env = .ok (next, res) →
    call env ⟨sorter, input, .reading, waiting, output⟩ =
      match res with
      | .io => .ok ⟨next, input, .reading, true, output⟩
      | .done () => .ok (take ⟨sorter, input, .reading, waiting, output⟩ next) := by
  intro hnx
  change (sorter.next env >>= _) = _
  rw [hnx]
  cases res <;> rfl

section
variable (hcollecting : Collecting sorter runs) (hsort : sorter.sortState = .start)
include hcollecting hsort

theorem inv_call_insert {r : Record config} {todo : List (Record config)}
    (hall : collected sorter runs + (r :: todo : List (Record config)) = all)
    (horder : sorter.chunks = [] → sorter.records ++ r :: todo = all)
    (hvalid : ∀ x ∈ r :: todo, Valid x) (hidle : Idle sorter) :
    ∃ next rank', call env ⟨sorter, payloads (r :: todo), .filling, waiting, []⟩ = .ok next ∧
      Inv all rank' next ∧ rank' < fillingRank sorter (r :: todo) := by
  obtain ⟨next, res, hinsert, hinserted⟩ :=
    @Collecting.insert config env sorter runs r hcollecting (hvalid r mem_cons_self) hidle
  cases hinserted with
  | io runs' hcollecting' hcollected hchunks hstart hinsert' hsort' =>
    refine ⟨_, _, call_insert hinsert, .collecting next runs' (r :: todo) true hcollecting'
      (hsort'.trans hsort) (by rw [hcollected, hall]) (fun hnil => absurd hnil hchunks) hvalid
      (fun hfalse => by cases hfalse), ?_⟩
    unfold fillingRank
    rw [hstart, hinsert']
    exact toLex_lt_toLex.2 (.inr ⟨rfl, by simp⟩)
  | done runs' hcollecting' hcollected horder' hidle' hsort' =>
    refine ⟨_, _, call_insert hinsert, .collecting next runs' todo false hcollecting'
      (hsort'.trans hsort) ?_ ?_ (fun x hx => hvalid x (mem_cons_of_mem _ hx))
      (fun _ => hidle'), ?_⟩
    · rw [hcollected, ← hall, Multiset.cons_add, ← Multiset.cons_coe, Multiset.add_cons]
    · intro hnil
      obtain ⟨hnil', hrs⟩ := horder' hnil
      rw [hrs, append_assoc]
      exact horder hnil'
    · cases todo with
      | nil => exact toLex_lt_toLex.2 (.inl (by omega))
      | cons x todo =>
        refine toLex_lt_toLex.2 (.inr ⟨rfl, ?_⟩)
        rw [length_cons]
        split_ifs <;> omega

/-- The first call of `sort`. -/
theorem inv_call_sort (hall : collected sorter runs = all)
    (horder : sorter.chunks = [] → sorter.records = all) (hfed : Fed env sorter)
    (hidle : Idle sorter) :
    ∃ next rank', call env ⟨sorter, [], .filling, waiting, []⟩ = .ok next ∧
      Inv all rank' next ∧ rank' < toLex (4, 0) := by
  by_cases hchunks : sorter.chunks = []
  · -- everything is in memory
    have hchunks' : State.chunks { sorter with records := sortRecords sorter.records } = [] := hchunks
    obtain ⟨next, hnx, hmoved⟩ := @sortNext_in_memory config env _ hchunks'
    have hcall : sorter.sort env = .ok (next, .done ()) := by
      rw [State.sort, hsort]
      rw [if_pos hchunks]
      exact hnx
    have hrs : [] ++ sortRecords sorter.records = sortRecords all := by
      rw [horder hchunks]
      rfl
    obtain ⟨rank', hinv, hlt⟩ := hmoved.take hrs .filling waiting sorter
    exact ⟨_, rank', call_sort hcall, hinv, hlt.trans (toLex_lt_toLex.2 (.inl (by omega)))⟩
  · let started : State config := { sorter with sortState := .initHeap }
    have hstarted : Collecting started runs := { hcollecting with }
    have hcall : sorter.sort env = if (started.flush env).2.isSome then
        .ok ((started.flush env).1, .io) else (started.flush env).1.sortInitHeap env := by
      rw [State.sort, hsort]
      rw [if_neg hchunks]
      rfl
    by_cases hrs : started.records = []
    · have hflush : started.flush env = (started, none) := by
        rw [State.flush, if_pos hrs]
      have hfed' : Fed env started := hfed
      obtain ⟨next, hnx, hfilling, hremaining, hlen, hsort'⟩ :=
        hstarted.sortInitHeap hfed' hidle hrs hchunks rfl
      rw [hflush, hnx] at hcall
      exact ⟨_, _, call_sort hcall, .pushing next runs [] 0 hfilling hsort' hlen
        (hremaining.trans hall), toLex_lt_toLex.2 (.inl (by omega))⟩
    · have hsome : (started.flush env).2.isSome = true := by
        rw [flush_eq started hrs]
        rfl
      rw [if_pos hsome] at hcall
      refine ⟨_, _, call_sort hcall, .flushed _ _ (hstarted.flush hrs) ?_ ?_ ?_
        ((collected_flush runs hrs).trans hall), toLex_lt_toLex.2 (.inl (by omega))⟩
      all_goals rw [flush_eq started hrs]
      exact append_ne_nil_of_right_ne_nil _ (cons_ne_nil _ _)

end

/-- A call succeeds, keeps the invariant and lowers the rank. -/
theorem Inv.call (hinv : Inv all rank query) (hfed : Fed env query.sorter)
    (henabled : query.Enabled .call) :
    ∃ next rank', query.call env = .ok next ∧ Inv all rank' next ∧ rank' < rank := by
  cases hinv with
  | collecting sorter runs todo waiting hcollecting hsort hall horder hvalid hidle =>
    have hidle' : Idle sorter := by
      cases waiting with
      | false => exact hidle rfl
      | true => exact idle_of_enabled henabled rfl
    cases todo with
    | nil =>
      exact inv_call_sort hcollecting hsort ((add_zero _).symm.trans hall)
        (fun hnil => (append_nil _).symm.trans (horder hnil)) hfed hidle'
    | cons r todo => exact inv_call_insert hcollecting hsort hall horder hvalid hidle'
  | flushed sorter runs hcollecting hsort hrs hchunks hall =>
    have hidle : Idle sorter := idle_of_enabled henabled rfl
    obtain ⟨next, hnext, hfilling, hremaining, hlen, hsort'⟩ :=
      hcollecting.sortInitHeap hfed hidle hrs hchunks hsort
    have hcall : sorter.sort env = .ok (next, .io) := by
      rw [State.sort, hsort]
      exact hnext
    exact ⟨_, _, call_sort hcall, .pushing next runs [] 0 hfilling hsort' hlen
      (hremaining.trans hall), toLex_lt_toLex.2 (.inl (by omega))⟩
  | pushing sorter runs heap pushed hfilling hsort hpushed hall =>
    have hidle : Idle sorter := idle_of_enabled henabled rfl
    obtain ⟨next, res, hnext, hsorted⟩ := hfilling.sortInitHeap hfed hidle hpushed hsort
    have hcall : sorter.sort env = .ok (next, res) := by
      rw [State.sort, hsort]
      exact hnext
    cases hsorted with
    | io runs' heap' pushed' hfilling' hrest hpushed' hsort' hprogress =>
      exact ⟨_, _, call_sort hcall, .pushing next runs' heap' pushed' hfilling' hsort' hpushed'
        (hrest.trans hall), toLex_lt_toLex.2 (.inr ⟨rfl, hprogress⟩)⟩
    | done n hmoved =>
      obtain ⟨rank', hinv, hlt⟩ := hmoved.take (Selected.nil _)
        ((zero_add _).trans hall) .filling true sorter
      exact ⟨_, rank', call_sort hcall, hinv,
        hlt.trans (toLex_lt_toLex.2 (.inl (by omega)))⟩
  | memory sorter output hchunks hall =>
    obtain ⟨next, hnext, hmoved⟩ := @next_in_memory config env sorter hchunks
    obtain ⟨rank', hinv, hlt⟩ := hmoved.take hall .reading false sorter
    exact ⟨_, rank', call_next hnext, hinv, hlt⟩
  | serving sorter runs heap output waiting hserving hchunks hselected hall =>
    rcases hserving.next hfed hchunks with ⟨index, hpending, hflight, hnext⟩ | ⟨next, hnext, hmoved⟩
    · cases waiting with
      | true =>
        rw [idle_of_enabled henabled rfl index] at hflight
        cases hflight
      | false =>
        exact ⟨_, _, call_next hnext, .serving sorter runs heap output true hserving hchunks
          hselected hall, toLex_lt_toLex.2 (.inr ⟨rfl, by simp⟩)⟩
    · obtain ⟨n, hn⟩ := Nat.exists_eq_add_one.2 (length_pos_iff.2 hchunks)
      rw [hn] at hmoved
      obtain ⟨rank', hinv, hlt⟩ := hmoved.take hselected hall .reading waiting sorter
      exact ⟨_, rank', call_next hnext, hinv, hlt⟩
  | finished => exact absurd rfl henabled.1

/-! ### IO that ends -/

/-- The sorter in which the IO of a chunk has ended. -/
def State.completed (env : Environment) (sorter : State config) (index : ℕ) (chunk : SortedChunk) :
    State config :=
  { sorter with chunks := sorter.chunks.set index (chunk.complete env index sorter.file) }

theorem complete_eq {i : ℕ} {chunk : SortedChunk} (hc : query.sorter.chunks[i]? = some chunk) :
    query.complete env i = { query with sorter := query.sorter.completed env i chunk } := by
  rw [complete, modify_eq_set_getElem?, hc]
  rfl

theorem inFlight_complete (c : SortedChunk) (i : ℕ) (file : ByteBuffer) :
    (c.complete env i file).inFlight = false := by
  unfold SortedChunk.complete
  cases hs : c.ioState <;> simp [inFlight, SortedChunk.readComplete, hs]

section Complete

variable {index : ℕ} {chunk : SortedChunk}

theorem sameChunk_complete (chunk : SortedChunk) (j : ℕ) (file : ByteBuffer) :
    SameChunk (chunk.complete env j file) chunk := by
  unfold SortedChunk.complete
  cases chunk.ioState <;> exact ⟨rfl, rfl⟩

theorem Written.complete {file : ByteBuffer} {run : List Bytes} (hw : Written file chunk run) :
    Written file (chunk.complete env index file) run := by
  unfold SortedChunk.complete
  rcases hw.ioState with hstate | hstate
  · rw [hstate]
    exact { hw with holds := { hw.holds with }, ioState := .inr rfl }
  · rw [hstate]
    exact hw

theorem Collecting.complete (hcollecting : Collecting sorter runs)
    (hchunk : sorter.chunks[index]? = some chunk) :
    Collecting (sorter.completed env index chunk) runs := by
  refine { hcollecting with
    length := length_set.trans hcollecting.length, chunks := ?_, offsets := ?_ }
  · intro y chunk' run hchunk' hrun
    rcases getElem?_set_cases hchunk' with ⟨rfl, rfl⟩ | ⟨-, ho⟩
    · exact (hcollecting.chunks y chunk run hchunk hrun).complete
    · exact hcollecting.chunks y chunk' run ho hrun
  · intro chunk' hchunk'
    rcases mem_or_eq_of_mem_set hchunk' with ho | rfl
    · exact hcollecting.offsets chunk' ho
    · obtain ⟨hstart, hsize⟩ := @sameChunk_complete env chunk index sorter.file
      rw [hstart, hsize]
      exact hcollecting.offsets chunk (mem_of_getElem? hchunk)

theorem Merging.complete (hmerging : Merging sorter runs heap) (hfed : Fed env sorter)
    (hc : sorter.chunks[index]? = some chunk) (hflight : chunk.inFlight = true) :
    Merging (sorter.completed env index chunk) runs heap ∧
      (chunk.complete env index sorter.file).nextState = chunk.nextState := by
  have hlt : index < runs.length := hmerging.length ▸ (List.getElem?_eq_some_iff.1 hc).1
  have hrun := getElem?_eq_getElem hlt
  obtain ⟨hremains, -, hnx⟩ :=
    (hmerging.chunks index chunk _ hc hrun).complete (hfed index chunk hc) hflight
  exact ⟨(hmerging.setChunk hrun hremains).congr hmerging.heap_eq rfl rfl, hnx⟩

theorem startBit_completed (hchunk : sorter.chunks[index]? = some chunk)
    (hnx : (chunk.complete env index sorter.file).nextState = chunk.nextState) (other : ℕ) :
    startBit (sorter.completed env index chunk) other = startBit sorter other := by
  unfold startBit State.completed
  rw [getElem?_set]
  split_ifs with hsame hlt <;> simp_all

theorem chunkInFlight_completed {x : ℕ}
    (hflight : (sorter.completed env index chunk).chunkInFlight x = true) :
    sorter.chunkInFlight x = true := by
  obtain ⟨c', hc', hflight'⟩ := chunkInFlight_iff.1 hflight
  rcases getElem?_set_cases hc' with ⟨rfl, rfl⟩ | ⟨-, ho⟩
  · rw [inFlight_complete] at hflight'
    cases hflight'
  · exact chunkInFlight_iff.2 ⟨c', ho, hflight'⟩

theorem Serving.complete (hserving : Serving sorter runs heap) (hfed : Fed env sorter)
    (hc : sorter.chunks[index]? = some chunk) (hflight : chunk.inFlight = true) :
    Serving (sorter.completed env index chunk) runs heap := by
  obtain ⟨hmerging, hnx⟩ := hserving.merging.complete hfed hc hflight
  refine ⟨hmerging, hserving.represented, fun x hx =>
    hserving.flight x (chunkInFlight_completed hx), fun x hx => ?_⟩
  obtain ⟨old, ho, hfinish⟩ := hserving.finish x hx
  by_cases hsame : x = index
  · subst hsame
    rw [hc] at ho
    cases ho
    exact ⟨_, getElem?_set_self (List.getElem?_eq_some_iff.1 hc).1, hnx.trans hfinish⟩
  · exact ⟨old, (getElem?_set_ne (Ne.symm hsame)).trans ho, hfinish⟩

end Complete

/-- IO that ends keeps the invariant and the rank. -/
theorem Inv.complete (hinv : Inv all rank query) (hfed : Fed env query.sorter) {i : ℕ} (hc : query.sorter.chunks[i]? = some c)
    (hflight : c.inFlight = true) : Inv all rank (query.complete env i) := by
  rw [complete_eq hc]
  have hempty : query.sorter.chunks ≠ [] := by
    intro hnil
    rw [hnil] at hc
    cases hc
  have hempty' : (query.sorter.completed env i c).chunks ≠ [] := by
    intro hnil
    exact hempty ((set_eq_nil_iff _ _).1 hnil)
  cases hinv with
  | collecting s runs todo waiting hcollecting hsort hall horder hvalid hidle =>
    have hwaiting : waiting = true := by
      cases waiting with
      | true => rfl
      | false =>
        have hidle' := hidle rfl i
        rw [chunkInFlight_iff.2 ⟨c, hc, hflight⟩] at hidle'
        cases hidle'
    subst hwaiting
    exact .collecting _ runs todo true (hcollecting.complete hc) hsort hall
      (fun hnil => absurd hnil hempty') hvalid (fun hfalse => by cases hfalse)
  | flushed s runs hcollecting hsort hrs hchunks hall =>
    exact .flushed _ runs (hcollecting.complete hc) hsort hrs hempty' hall
  | pushing s runs heap pushed hfilling hsort hpushed hall =>
    obtain ⟨hmerging, hnx⟩ := hfilling.merging.complete hfed hc hflight
    have hlen : (s.completed env i c).chunks.length = s.chunks.length := length_set
    rw [← hlen, ← startBit_completed hc hnx]
    exact .pushing _ runs heap pushed { hfilling with merging := hmerging } hsort (hlen ▸ hpushed) hall
  | memory s output hchunks hall => exact absurd hchunks hempty
  | serving s runs heap output waiting hserving hchunks hselected hall =>
    exact .serving _ runs heap output waiting (hserving.complete hfed hc hflight) hempty'
      hselected hall
  | finished s output hperm hsorted hstable =>
    exact .finished _ output hperm hsorted (fun hnil => absurd hnil hempty')

/-- The number of chunks with IO in flight. -/
def State.flights (sorter : State config) : ℕ :=
  sorter.chunks.countP inFlight

theorem flights_completed {i : ℕ}
    (hc : sorter.chunks[i]? = some c) (hflight : c.inFlight = true) :
    (sorter.completed env i c).flights < sorter.flights := by
  obtain ⟨hlt, hget⟩ := List.getElem?_eq_some_iff.1 hc
  have hpos : 0 < sorter.chunks.countP inFlight := countP_pos_iff.2 ⟨c, mem_of_getElem? hc, hflight⟩
  unfold State.flights State.completed
  rw [countP_set hlt, hget, hflight, inFlight_complete]
  simp only [if_true, Bool.false_eq_true, if_false]
  omega

/-- A step in which the reads get far enough. -/
def Query.FedStep (env : Environment) (query : Query config) (event : Event) (next : Query config) :
    Prop :=
  Fed env query.sorter ∧ query.Step env event next

/-- A step keeps the invariant; a call lowers the rank, and IO that ends the number in flight. -/
theorem Inv.step (hinv : Inv all rank query) {event : Event} {next : Query config}
    (hstep : query.FedStep env event next) :
    ∃ rank', Inv all rank' next ∧
      toLex (rank', next.sorter.flights) < toLex (rank, query.sorter.flights) := by
  obtain ⟨hfed, henabled, hnx⟩ := hstep
  cases event with
  | call =>
    obtain ⟨next', rank', hcall, hinv', hlt⟩ := hinv.call hfed henabled
    rw [hcall] at hnx
    cases hnx
    exact ⟨rank', hinv', toLex_lt_toLex.2 (.inl hlt)⟩
  | complete i =>
    obtain ⟨c, hc, hflight⟩ := chunkInFlight_iff.1 henabled
    subst hnx
    refine ⟨rank, hinv.complete hfed hc hflight, toLex_lt_toLex.2 (.inr ⟨rfl, ?_⟩)⟩
    rw [complete_eq hc]
    exact flights_completed hc hflight

/-- There is no infinite run. -/
theorem Inv.acc (hinv : Inv all rank query) :
    Acc (fun next query => ∃ event, FedStep env query event next) query := by
  generalize hmeasure : toLex (rank, query.sorter.flights) = measure
  induction measure using WellFoundedLT.induction generalizing rank query with
  | ind measure ih =>
    subst hmeasure
    refine Acc.intro query ?_
    rintro next ⟨event, hstep⟩
    obtain ⟨rank', hinv', hlt⟩ := hinv.step hstep
    exact ih _ hlt hinv' rfl

end Steps

/-! ## Stability -/

/-- The records with the same key as a given one. -/
def withKey (key : Record config) (records : List (Record config)) : List (Record config) :=
  records.filter fun record => fullCmp config.locales [] config.keyInfo key.key record.key = .eq

/-- The sort in memory keeps records with equal keys in order. -/
theorem withKey_sortRecords (k : Record config) (records : List (Record config)) :
    withKey k (sortRecords records) = withKey k records := by
  have hk : ∀ r ∈ withKey k records, Record.cmp k r = .eq := by
    intro r hr
    rw [Record.cmp, cmp_eq_fullCmp]
    simpa using (mem_filter.1 hr).2
  have hpairwise : (withKey k records).Pairwise fun u w =>
      (Record.cmp u w).isLE = true := by
    refine pairwise_of_forall_mem_list fun u hu w hw => ?_
    have hequal := hk u hu
    rw [← Std.TransCmp.congr_left hequal, hk w hw]
    rfl
  have hsublist : (withKey k records).Sublist (sortRecords records) :=
    sublist_insertionSort hpairwise filter_sublist
  have hfilter : (withKey k records).Sublist (withKey k (sortRecords records)) := by
    have hsublist' := hsublist.filter fun r =>
      decide (fullCmp config.locales [] config.keyInfo k.key r.key = .eq)
    rwa [show filter _ (withKey k records) = withKey k records from
      filter_filter.trans (by simp [withKey])] at hsublist'
  exact (hfilter.eq_of_length ((sortRecords_perm records).filter _).length_eq.symm).symm

/-! ## Correctness -/

/-- External sort is exact as long as each read of a chunk gets at least to the end of the record in
which it begins: whatever IO does, calls succeed, the caller never has to wait for nothing, it is
finished after finitely many steps, and then it has got a permutation of the records in order, with
equal keys in the order of insertion if nothing went to disk. -/
theorem external_sort_exact {records : List (Record config)}
    (hvalid : ∀ record ∈ records, Valid record) {events : List Event} {query : Query config}
    (hrun : Run (FedStep env) (start config (payloads records)) events query) :
    (Fed env query.sorter → query.Enabled .call → ∃ next, query.call env = .ok next) ∧
      (query.phase ≠ .finished → ∃ event, query.Enabled event) ∧
      Acc (fun next query => ∃ event, FedStep env query event next) query ∧
      (query.phase = .finished → ∃ sorted, query.output = payloads sorted ∧ sorted.Perm records ∧
        sorted.Pairwise Record.le ∧
        (query.sorter.chunks = [] → ∀ key, withKey key sorted = withKey key records)) := by
  have hkeep : ∀ {start : Query config} {event : Event} {next : Query config},
      (∃ rank, Inv records rank start) → FedStep env start event next →
        ∃ rank, Inv records rank next := by
    rintro start event next ⟨rank, hinv⟩ hstep
    obtain ⟨rank', hinv', -⟩ := hinv.step hstep
    exact ⟨rank', hinv'⟩
  obtain ⟨rank, hinv⟩ : ∃ rank, Inv records rank query :=
    @Run.invariant _ _ _ _ _ _ (fun query => ∃ rank, Inv records rank query) hkeep hrun
      ⟨_, inv_start records hvalid⟩
  refine ⟨fun hfed henabled => ?_, fun hphase => ?_, hinv.acc, fun hphase => ?_⟩
  · obtain ⟨next, -, hcall, -⟩ := hinv.call hfed henabled
    exact ⟨next, hcall⟩
  · by_cases hflight : ∃ index, query.sorter.chunkInFlight index = true
    · obtain ⟨index, hflight⟩ := hflight
      exact ⟨.complete index, hflight⟩
    · refine ⟨.call, hphase, fun _ chunk hchunk => ?_⟩
      obtain ⟨index, hindex⟩ := mem_iff_getElem?.1 hchunk
      rw [Bool.eq_false_iff]
      exact fun htrue => hflight ⟨index, chunkInFlight_iff.2 ⟨chunk, hindex, htrue⟩⟩
  · cases hinv with
    | finished sorter output hperm hsorted hstable =>
      refine ⟨output, rfl, hperm, hsorted, fun hnil key => ?_⟩
      rw [hstable hnil]
      exact withKey_sortRecords key records
    | _ => cases hphase

/-! ## Runs without waiting -/

/-- Reads that get to the end of a chunk get far enough. -/
theorem fed_of_le (h : ∀ c ∈ sorter.chunks, ∀ i pos,
    c.chunkSize ≤ pos + env.bytesRead i pos) : Fed env sorter := by
  intro i c hc before payload after hbytes pos ha hlast
  have hsize := congrArg length hbytes
  rw [ByteBuffer.length_slice, encodeRecords_append, encodeRecords_cons, length_append,
    length_append] at hsize
  have hread := h c (mem_of_getElem? hc) i pos
  omega

/-- Call after call, where nothing is in flight and the chunks are not too large. -/
def Query.calls (env : Environment) (bound : ℕ) : ℕ → Query config → Option (Query config)
  | 0, query => some query
  | count + 1, query =>
    if query.phase ≠ .finished ∧
        ∀ chunk ∈ query.sorter.chunks, chunk.inFlight = false ∧ chunk.chunkSize ≤ bound then
      match query.call env with
      | .ok next => calls env bound count next
      | .error _ => none
    else none

theorem run_of_calls {bound n : ℕ} {query final : Query config}
    (h : query.calls env bound n = some final) :
    Run (fun query event next => (∀ c ∈ query.sorter.chunks, c.chunkSize ≤ bound) ∧
      Step env query event next) query (replicate n .call) final := by
  induction n generalizing query with
  | zero =>
    cases h
    exact .nil _
  | succ n ih =>
    rw [calls] at h
    split_ifs at h with henabled
    cases hcall : query.call env with
    | error error =>
      rw [hcall] at h
      cases h
    | ok next =>
      rw [hcall] at h
      exact .cons ⟨fun c hc => (henabled.2 c hc).2,
        ⟨henabled.1, fun _ c hc => (henabled.2 c hc).1⟩, hcall⟩ (ih h)

/-- Records with one column, a blob that is all of the payload. -/
def blobs (maxBufferSize : ℕ) : Config where
  keyLen := 1
  keyInfo := [⟨.asc, .binary, none⟩]
  maxBufferSize := maxBufferSize
  minChunkReadBufferSize := 4
  locales := emptyLocales
  columns payload := .ok [.ok (.blob payload)]

def blob (maxBufferSize : ℕ) (payload : Bytes) : Record (blobs maxBufferSize) :=
  ⟨payload, [.blob payload], rfl⟩

/-- Reads that return up to a number of bytes at once. -/
def readsOf (bytes : ℕ) : Environment :=
  ⟨fun _ _ => bytes, fun _ _ => true, fun _ => true⟩

theorem valid_blob {maxBufferSize : ℕ} (hlen : payload.length < 2 ^ 64) :
    Valid (blob maxBufferSize payload) :=
  ⟨rfl, hlen⟩

/-- Three records in two chunks. -/
theorem external_sort_exact_two_chunks : ∃ events query sorted, Run (FedStep (readsOf 100))
        (start (blobs 2) (payloads [blob 2 [3], blob 2 [2], blob 2 [1]])) events query ∧
      query.phase = .finished ∧ query.output = payloads sorted ∧
      sorted.Perm [blob 2 [3], blob 2 [2], blob 2 [1]] ∧ sorted.Pairwise Record.le := by
  have hcalls : ((start (blobs 2) (payloads [blob 2 [3], blob 2 [2], blob 2 [1]])).calls
      (readsOf 100) 100 9).map phase = some .finished := by
    decide +kernel
  obtain ⟨query, hquery, hphase⟩ := Option.map_eq_some_iff.1 hcalls
  have hrun : Run (FedStep (readsOf 100))
      (start (blobs 2) (payloads [blob 2 [3], blob 2 [2], blob 2 [1]])) _ query :=
    (run_of_calls hquery).mono fun hstep => ⟨fed_of_le fun chunk hchunk _ position =>
      (hstep.1 chunk hchunk).trans (Nat.le_add_left 100 position), hstep.2⟩
  have hvalid : ∀ record ∈ [blob 2 [3], blob 2 [2], blob 2 [1]], Valid record := by
    simp only [forall_mem_cons]
    exact ⟨valid_blob (by decide), valid_blob (by decide), valid_blob (by decide),
      fun _ hnone => by cases hnone⟩
  obtain ⟨-, -, -, hfinished⟩ := external_sort_exact hvalid hrun
  obtain ⟨sorted, houtput, hperm, hsorted, -⟩ := hfinished hphase
  exact ⟨_, query, sorted, hrun, hphase, houtput, hperm, hsorted⟩

/-- With reads of one byte each chunk has only the length of its first record in the buffer.  Then
`SortedChunk::next` parses no record and says that the chunk is exhausted, and all records are lost. -/
theorem short_reads_lose_records :
    ∃ (records : List (Record (blobs 1))) (events : List Event) (query : Query (blobs 1)),
      (∀ record ∈ records, Valid record) ∧
      Run (Step (readsOf 1)) (start (blobs 1) (payloads records)) events query ∧
      query.phase = .finished ∧ records.length = 2 ∧ query.output = [] := by
  have hcalls : ((start (blobs 1) (payloads [blob 1 [1], blob 1 [2]])).calls
      (readsOf 1) 2 5).map (fun query => (query.phase, query.output)) = some (.finished, []) := by
    decide +kernel
  obtain ⟨query, hquery, hresult⟩ := Option.map_eq_some_iff.1 hcalls
  obtain ⟨hphase, houtput⟩ := Prod.mk.inj hresult
  refine ⟨[blob 1 [1], blob 1 [2]], _, query, ?_, (run_of_calls hquery).mono fun hstep => hstep.2,
    hphase, rfl, houtput⟩
  simp only [forall_mem_cons]
  exact ⟨valid_blob (by decide), valid_blob (by decide), fun _ hnone => by cases hnone⟩

end Turso.Sorter
