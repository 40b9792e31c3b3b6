import Turso.Storage.Overflow.Write

/-!
# Reading a payload back

`process_overflow_read` (`core/storage/btree.rs`) collects a record from its local part
and its chain of overflow pages.  Between two pages it may return to wait for the page
cache; it has then changed nothing, and the next call repeats the step
(`readIteration`).  `processOverflowRead` is the loop, run against the list of these
waits.

`readLoop_chain` is the counterpart of `OverflowChain`: from the first page of a chain
that holds `data`, the loop ends with `data` appended.
-/

namespace Turso.Overflow

open List

variable {read data : List UInt8}

/-- `ReadPayloadOverflow`. -/
structure ReadPayloadOverflow where
  payload : List UInt8
  nextPage : ℕ
  remainingToRead : ℕ
  page : ByteBuffer

/-- What one pass through the loop of `process_overflow_read` does. -/
inductive ReadFlow where
  | again (state : Option ReadPayloadOverflow)
  | done (record : List UInt8)
  | error (err : LimboError)

/-- The arguments of `process_overflow_read`, and the pages it reads from. -/
structure ReadArgs where
  layout : PageLayout
  pages : ℕ → ByteBuffer
  payload : List UInt8
  startNextPage : ℕ
  payloadSize : ℕ

/-- One pass through the loop; `waits` says whether `read_page` has to wait before it
can hand out the page. -/
def readIteration (args : ReadArgs) (waits : Bool) : Option ReadPayloadOverflow → ReadFlow
  | none =>
    if args.payloadSize < args.payload.length then
      .error (.corrupt "payload size is smaller than local payload bytes")
    else if waits then .again none
    else
      .again (some
        { payload := args.payload
          nextPage := args.startNextPage
          remainingToRead := args.payloadSize - args.payload.length
          page := args.pages args.startNextPage })
  | some state =>
    let next := state.page.readU32 0
    let toRead := min state.remainingToRead (args.layout.usableSpace - 4)
    let needNextPage := state.remainingToRead > toRead ∧ next ≠ 0
    if needNextPage ∧ waits then .again (some state)
    else
      let payload := state.payload ++ state.page.slice 4 toRead
      let remainingToRead := state.remainingToRead - toRead
      if needNextPage then
        .again (some
          { payload := payload
            nextPage := next
            remainingToRead := remainingToRead
            page := args.pages next })
      else if remainingToRead ≠ 0 ∨ next ≠ 0 then
        .error (.corrupt "inconsistent overflow chain observed during payload read")
      else .done payload

/-- How a run of `process_overflow_read` ends. -/
inductive ReadResult where
  | done (record : List UInt8)
  | error (err : LimboError)
  | waiting (state : Option ReadPayloadOverflow)

/-- `process_overflow_read`, with one entry of the list for each pass. -/
def processOverflowRead (args : ReadArgs) :
    List Bool → Option ReadPayloadOverflow → ReadResult
  | [], state => .waiting state
  | waits :: rest, state =>
    match readIteration args waits state with
    | .again state => processOverflowRead args rest state
    | .done record => .done record
    | .error err => .error err

/-! ## Reading a chain -/

variable {args : ReadArgs}

/-- The last page of a chain ends the loop. -/
theorem readIteration_last {waits : Bool} {id : ℕ}
    (hch : OverflowChain args.pages (args.layout.usableSpace - 4) [id] data) :
    readIteration args waits (some
      { payload := read, nextPage := id, remainingToRead := data.length,
        page := args.pages id }) = .done (read ++ data) := by
  obtain ⟨-, hnx, hdata, hdrop⟩ := hch
  have hfits : data.length ≤ args.layout.usableSpace - 4 := drop_eq_nil_iff.1 hdrop
  rw [Nat.min_eq_right hfits, take_of_length_le hfits] at hdata
  have hzero : (args.pages id).readU32 0 = 0 := hnx
  simp [readIteration, hzero, Nat.min_eq_left hfits, hdata]

variable {rest : List ℕ}

/-- A page that is not the last is left for the next one, unless the loop waits. -/
theorem readIteration_next {waits : Bool} {id next : ℕ} (hne : next ≠ 0)
    (hch : OverflowChain args.pages (args.layout.usableSpace - 4) (id :: next :: rest) data) :
    readIteration args waits (some
        { payload := read, nextPage := id, remainingToRead := data.length,
          page := args.pages id }) =
      .again (some (if waits then
        { payload := read, nextPage := id, remainingToRead := data.length,
          page := args.pages id }
      else
        { payload := read ++ data.take (args.layout.usableSpace - 4), nextPage := next,
          remainingToRead := (data.drop (args.layout.usableSpace - 4)).length,
          page := args.pages next })) := by
  obtain ⟨-, hnx, hdata, hrest, -⟩ := hch
  have hmore : args.layout.usableSpace - 4 < data.length := by
    simpa [drop_eq_nil_iff] using hrest
  rw [Nat.min_eq_left hmore.le] at hdata
  have hid : (args.pages id).readU32 0 = next := hnx
  cases waits <;> simp [readIteration, hid, hne, Nat.min_eq_right hmore.le, hmore, hdata]

theorem readLoop_chain {id : ℕ}
    (hch : OverflowChain args.pages (args.layout.usableSpace - 4) (id :: rest) data)
    (hrest : ∀ next ∈ rest, next ≠ 0) {waits : List Bool} (hwaits : rest.length < waits.count false) :
    processOverflowRead args waits (some
      { payload := read, nextPage := id, remainingToRead := data.length,
        page := args.pages id }) = .done (read ++ data) := by
  induction waits generalizing id rest read data with
  | nil => simp at hwaits
  | cons wait waits ih =>
    cases rest with
    | nil => rw [processOverflowRead, readIteration_last hch]
    | cons next rest =>
      rw [processOverflowRead, readIteration_next (hrest next mem_cons_self) hch]
      cases wait with
      | true => exact ih hch hrest (by simpa using hwaits)
      | false =>
        have hlater : ∀ id ∈ rest, id ≠ 0 := fun id hid =>
          hrest id (mem_cons_of_mem _ hid)
        refine (ih hch.2.2.2 hlater (by simpa using hwaits)).trans ?_
        rw [append_assoc, take_append_drop]

/-- Reading from the start: the local part, then the chain. -/
theorem processOverflowRead_chain
    (hch : OverflowChain args.pages (args.layout.usableSpace - 4)
      (args.startNextPage :: rest) data) (hrest : ∀ next ∈ rest, next ≠ 0)
    (hsize : args.payloadSize = args.payload.length + data.length) {waits : List Bool}
    (hwaits : rest.length + 1 < waits.count false) :
    processOverflowRead args waits none = .done (args.payload ++ data) := by
  induction waits with
  | nil => simp at hwaits
  | cons wait waits ih =>
    cases wait with
    | true =>
      rw [processOverflowRead, readIteration, if_neg (by omega), if_pos rfl]
      exact ih (by simpa using hwaits)
    | false =>
      rw [processOverflowRead, readIteration, if_neg (by omega), if_neg (by decide), hsize,
        Nat.add_sub_cancel_left]
      exact readLoop_chain hch hrest (by simpa using hwaits)

end Turso.Overflow
