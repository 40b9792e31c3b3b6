import Turso.Storage.Cell
import Mathlib.Algebra.Order.Floor.Div

/-!
# Writing a payload

`fill_cell_payload` (`core/storage/btree.rs`) builds the bytes of a cell and, when the
record does not fit, copies the rest into a chain of overflow pages.  It is a state
machine: `Copy` fills the space of the current page, `AllocateOverflowPage` asks the
pager for the next one and links it.  The pager may answer that it has to wait, and
the function is then called again in the same state; `fillCellPayload` runs the
machine against a list of the pager's answers.

The chain is described by `OverflowChain`.  The run is analysed from the state that
waits for a page (`copyLoop_allocate`), by induction on the answers: what is
written after a page has been linked touches only pages that come later in the chain.
-/

namespace Turso.Overflow

open ByteBuffer List

/-- Where the cell goes, with the part of the header that depends on it: the rowid of
a table leaf cell, or the left child that an index interior cell takes over from the
cell it replaces. -/
inductive CellTarget where
  | tableLeaf (intKey : Int64)
  | indexLeaf
  | indexInterior (leftChildPage : UInt32)
  | tableInterior
  deriving DecidableEq, Repr

def CellTarget.pageType : CellTarget → PageType
  | .tableLeaf _ => .tableLeaf
  | .indexLeaf => .indexLeaf
  | .indexInterior _ => .indexInterior
  | .tableInterior => .tableInterior

/-- The arguments of `fill_cell_payload` that stay fixed while it runs. -/
structure Args where
  layout : PageLayout
  target : CellTarget
  record : List UInt8

abbrev Args.usableSpace (args : Args) : ℕ := args.layout.usableSpace

/-- `CopyDataState`. -/
inductive CopyDataState where
  | copy
  | allocateOverflowPage
  deriving DecidableEq, Repr

/-- The fields of `FillCellPayloadState::CopyData`. -/
structure CopyData where
  state : CopyDataState
  spaceLeftOnCurPage : ℕ
  srcDataOffset : ℕ
  dstDataOffset : ℕ
  currentOverflowPage : Option ℕ

/-- What `fill_cell_payload` writes: the bytes of the cell and the overflow pages. -/
structure Output where
  cellPayload : List UInt8
  pages : ℕ → ByteBuffer

/-- An answer of `Pager::allocate_overflow_page`. -/
inductive AllocateAnswer where
  | page (id : ℕ)
  | io
  | error (err : LimboError)
  deriving DecidableEq, Repr

/-- How a run of `fill_cell_payload` ends: it is done and leaves some answers unused,
it fails, or it still waits for a page. -/
inductive FillResult where
  | done (output : Output) (unused : List AllocateAnswer)
  | error (err : LimboError)
  | waiting (data : CopyData) (output : Output)

/-- Replace the bytes of `bytes` from offset `off` on by `data`. -/
def overwrite (bytes : List UInt8) (off : ℕ) (data : List UInt8) : List UInt8 :=
  bytes.take off ++ data ++ bytes.drop (off + data.length)

/-- The header of the cell: left child page, payload size, rowid. -/
def cellHeader (target : CellTarget) (payloadSize : ℕ) : List UInt8 :=
  match target with
  | .indexInterior leftChildPage =>
    u32ToBytes leftChildPage.toNat ++ writeVarint payloadSize
  | .tableLeaf intKey => writeVarint payloadSize ++ writeVarint intKey.toUInt64.toNat
  | .indexLeaf | .tableInterior => writeVarint payloadSize

/-- Copy bytes of the record to the current page: an overflow page, or the cell. -/
def copyInto (data : CopyData) (toCopy : List UInt8) (output : Output) :
    Except LimboError Output :=
  match data.currentOverflowPage with
  | some curPage =>
    if data.dstDataOffset ≠ 4 then
      .error (.assertion "data must be copied to overflow page pointer offset on overflow pages")
    else
      let contents := (output.pages curPage).write data.dstDataOffset toCopy
      .ok { output with pages := Function.update output.pages curPage contents }
  | none =>
    let cellPayload := overwrite output.cellPayload data.dstDataOffset toCopy
    .ok { output with cellPayload := cellPayload }

/-- `CopyDataState::Copy`.  The copying is finished, or goes on with the next page. -/
def copyStep (args : Args) (data : CopyData) (output : Output) :
    Except LimboError (Output × Option CopyData) := do
  if ¬ data.srcDataOffset < args.record.length then
    throw (.assertion "trying to read past end of record buffer")
  let recordOffsetSlice := args.record.drop data.srcDataOffset
  let amountToCopy := min data.spaceLeftOnCurPage recordOffsetSlice.length
  let output ← copyInto data (recordOffsetSlice.take amountToCopy) output
  if recordOffsetSlice.length - amountToCopy = 0 then
    return (output, none)
  return (output, some { data with
    state := .allocateOverflowPage
    srcDataOffset := data.srcDataOffset + amountToCopy })

variable (current : Option ℕ)

/-- Point the current end of the chain at page `id`: the last overflow page, or the
pointer at the end of the cell. -/
def link (id : ℕ) (output : Output) : Output :=
  match current with
  | some prevPage =>
    let contents := (output.pages prevPage).write 0 (u32ToBytes id)
    { output with pages := Function.update output.pages prevPage contents }
  | none =>
    let off := output.cellPayload.length - 4
    { output with
      cellPayload := overwrite output.cellPayload off (u32ToBytes id) }

/-- `allocate_overflow_page` has returned page `id`, cleared. -/
def clearPage (id : ℕ) (output : Output) : Output :=
  { output with pages := Function.update output.pages id zeros }

/-- `CopyDataState::AllocateOverflowPage`, once the page is there. -/
def allocateStep (args : Args) (data : CopyData) (id : ℕ) (output : Output) : CopyData × Output :=
  ({ data with
      state := .copy
      dstDataOffset := 4
      spaceLeftOnCurPage := args.usableSpace - 4
      currentOverflowPage := some id },
    link data.currentOverflowPage id (clearPage id output))

/-- The loop in `FillCellPayloadState::CopyData`, against the answers of the pager. -/
def copyLoop (args : Args) : List AllocateAnswer → CopyData → Output → FillResult
  | answers, data, output =>
    match
      match data.state with
      | .copy => copyStep args data output
      | .allocateOverflowPage => .ok (output, some data) with
    | .error err => .error err
    | .ok (output, none) => .done output answers
    | .ok (output, some data) =>
      match answers with
      | [] => .waiting data output
      | .io :: rest => copyLoop args rest data output
      | .error err :: _ => .error err
      | .page id :: rest =>
        copyLoop args rest (allocateStep args data id output).1
          (allocateStep args data id output).2

/-- `fill_cell_payload`, from `FillCellPayloadState::Start`, on an empty cell. -/
def fillCellPayload (args : Args) (answers : List AllocateAnswer) (pages : ℕ → ByteBuffer) :
    FillResult :=
  let header := cellHeader args.target args.record.length
  match localSize args.target.pageType args.usableSpace args.record.length with
  | none => .done { cellPayload := header ++ args.record, pages := pages } answers
  | some localPayloadSize =>
    copyLoop args answers
      { state := .copy
        spaceLeftOnCurPage := localPayloadSize - 4
        srcDataOffset := 0
        dstDataOffset := header.length
        currentOverflowPage := none }
      { cellPayload := header ++ replicate localPayloadSize 0, pages := pages }

/-! ## Chains of overflow pages -/

/-- The pages `ids` hold `data`, each `dataSize` bytes of it after the pointer to the
next page. -/
def OverflowChain (pages : ℕ → ByteBuffer) (dataSize : ℕ) : List ℕ → List UInt8 → Prop
  | [], data => data = []
  | id :: rest, data =>
    data ≠ [] ∧ (pages id).readU32 0 = rest.headD 0 ∧
      (pages id).slice 4 (min dataSize data.length) = data.take dataSize ∧
      OverflowChain pages dataSize rest (data.drop dataSize)

theorem OverflowChain.congr {pages pages' : ℕ → ByteBuffer} {dataSize : ℕ} {ids : List ℕ}
    {data : List UInt8} (hch : OverflowChain pages dataSize ids data)
    (hagree : ∀ id ∈ ids, pages' id = pages id) : OverflowChain pages' dataSize ids data := by
  induction ids generalizing data with
  | nil => exact hch
  | cons id rest ih =>
    obtain ⟨hne, hnx, hdata, hrest⟩ := hch
    have hid := hagree id mem_cons_self
    refine ⟨hne, by rw [hid, hnx], by rw [hid, hdata], ih hrest ?_⟩
    exact fun x hx => hagree x (mem_cons_of_mem _ hx)

theorem ceilDiv_eq_succ {n size : ℕ} (hn : 0 < n) (hsize : 0 < size) :
    n ⌈/⌉ size = (n - size) ⌈/⌉ size + 1 := by
  rw [Nat.ceilDiv_eq_add_pred_div, Nat.ceilDiv_eq_add_pred_div]
  rcases Nat.le_total n size with hle | hle
  · rw [Nat.sub_eq_zero_of_le hle, Nat.div_eq_of_lt (by omega : 0 + size - 1 < size)]
    exact Nat.div_eq_of_lt_le (by omega) (by omega)
  · rw [← Nat.add_div_right _ hsize]
    congr 1
    omega

theorem OverflowChain.length_eq {pages : ℕ → ByteBuffer} {dataSize : ℕ} (hsize : 0 < dataSize)
    {ids : List ℕ} {data : List UInt8} (hch : OverflowChain pages dataSize ids data) :
    ids.length = data.length ⌈/⌉ dataSize := by
  induction ids generalizing data with
  | nil => simp [show data = [] from hch]
  | cons id rest ih =>
    obtain ⟨hne, -, -, hrest⟩ := hch
    rw [length_cons, ih hrest, length_drop, ceilDiv_eq_succ (length_pos_iff.2 hne) hsize]

/-! ## The run -/

theorem Args.dataSize_pos (args : Args) : 0 < args.usableSpace - 4 := by
  have husable : 480 ≤ args.usableSpace := args.layout.le_usableSpace
  omega

/-- The pages among the answers of the pager. -/
def pageIds : List AllocateAnswer → List ℕ
  | [] => []
  | .page id :: rest => id :: pageIds rest
  | _ :: rest => pageIds rest

/-- What the pager promises of its answers: it does not fail, and every page it hands
out is a new one with a number that is not zero and fits 32 bits. -/
structure Fresh (answers : List AllocateAnswer) : Prop where
  no_error : ∀ err, AllocateAnswer.error err ∉ answers
  nodup : (pageIds answers).Nodup
  pos : ∀ id ∈ pageIds answers, 0 < id
  lt : ∀ id ∈ pageIds answers, id < 4294967296

variable {rest : List AllocateAnswer}

theorem Fresh.of_cons {answer : AllocateAnswer}
    (hfresh : Fresh (answer :: rest)) : Fresh rest := by
  have hsub : ∀ id ∈ pageIds rest, id ∈ pageIds (answer :: rest) := by
    intro id hid
    cases answer <;> simp [pageIds, hid]
  refine ⟨fun err hm => hfresh.no_error err (mem_cons_of_mem _ hm), ?_,
    fun id hid => hfresh.pos id (hsub id hid), fun id hid => hfresh.lt id (hsub id hid)⟩
  have hnodup := hfresh.nodup
  cases answer with
  | page id => exact (nodup_cons.1 hnodup).2
  | io | error err => exact hnodup

variable {args : Args} {data : CopyData} {ans : List AllocateAnswer} {output : Output}

section
variable {output' : Output} (hsrc : data.srcDataOffset < args.record.length)
  (hcopy : copyInto data ((args.record.drop data.srcDataOffset).take data.spaceLeftOnCurPage)
    output = .ok output')
include hsrc hcopy

/-- A copy takes what fits of the rest of the record, and is the last one when that is
all of it. -/
theorem copyStep_eq :
    copyStep args data output = .ok (output',
      if args.record.length - data.srcDataOffset ≤ data.spaceLeftOnCurPage then none
      else some { data with
        state := .allocateOverflowPage
        srcDataOffset := data.srcDataOffset + data.spaceLeftOnCurPage }) := by
  have htake : (args.record.drop data.srcDataOffset).take
      (min data.spaceLeftOnCurPage (args.record.drop data.srcDataOffset).length) =
      (args.record.drop data.srcDataOffset).take data.spaceLeftOnCurPage := by
    rw [take_eq_take_iff]
    omega
  rw [copyStep, if_neg (not_not.2 hsrc)]
  simp only [htake, hcopy, bind, Except.bind, pure, Except.pure]
  rw [length_drop]
  by_cases hlast : args.record.length - data.srcDataOffset ≤ data.spaceLeftOnCurPage
  · rw [if_pos hlast, Nat.min_eq_right hlast, Nat.sub_self, if_pos rfl]
  · rw [if_neg hlast, Nat.min_eq_left (by omega), if_neg (by omega)]

theorem copyLoop_copy (hs : data.state = .copy) :
    copyLoop args ans data output =
      if args.record.length - data.srcDataOffset ≤ data.spaceLeftOnCurPage then
        .done output' ans
      else copyLoop args ans { data with
        state := .allocateOverflowPage
        srcDataOffset := data.srcDataOffset + data.spaceLeftOnCurPage } output' := by
  split
  next hlast =>
    rw [copyLoop]
    simp only [hs, copyStep_eq hsrc hcopy, if_pos hlast]
  next hmore =>
    conv_lhs => rw [copyLoop]
    conv_rhs => rw [copyLoop]
    simp only [hs, copyStep_eq hsrc hcopy, if_neg hmore]

end

/-- The pages outside the chain are those that linking the first page leaves. -/
theorem link_clearPage_apply {current : Option ℕ} {first id : ℕ}
    (hne : id ≠ first) (hcurrent : ∀ prev ∈ current, prev ≠ first) :
    (link current first (clearPage first output)).pages id =
      (link current first output).pages id := by
  cases current with
  | none => simp [link, clearPage, hne]
  | some prev =>
    have hprev : prev ≠ first := hcurrent prev rfl
    by_cases hid : id = prev
    · simp [link, clearPage, hid, hprev]
    · simp [link, clearPage, hid, hne]

theorem link_clearPage_cellPayload (a : ℕ) (output : Output) :
    (link current a (clearPage a output)).cellPayload = (link current a output).cellPayload := by
  cases current <;> rfl

variable {a : ℕ}

theorem link_clearPage_self {current : Option ℕ}
    (hcurrent : ∀ prev ∈ current, prev ≠ a) :
    (link current a (clearPage a output)).pages a = zeros := by
  cases current with
  | none => simp [link, clearPage]
  | some prev => simp [link, clearPage, (hcurrent prev rfl).symm]

/-- The output after page `first` has been linked and filled. -/
def fillPage (args : Args) (data : CopyData) (first : ℕ) (output : Output) : Output :=
  let linked := link data.currentOverflowPage first (clearPage first output)
  let contents := zeros.write 4
    ((args.record.drop data.srcDataOffset).take (args.usableSpace - 4))
  { linked with pages := Function.update linked.pages first contents }

/-- The state that waits for the page after `first`. -/
def awaitNext (args : Args) (data : CopyData) (first : ℕ) : CopyData where
  state := .allocateOverflowPage
  spaceLeftOnCurPage := args.usableSpace - 4
  srcDataOffset := data.srcDataOffset + (args.usableSpace - 4)
  dstDataOffset := 4
  currentOverflowPage := some first

/-- The pager hands out a page: it is linked and filled, and then the record is
finished or the next page is awaited. -/
theorem copyLoop_page
    (hs : data.state = .allocateOverflowPage)
    (hsrc : data.srcDataOffset < args.record.length)
    (hcurrent : ∀ prev ∈ data.currentOverflowPage, prev ≠ a) :
    copyLoop args (.page a :: rest) data output =
      if args.record.length - data.srcDataOffset ≤ args.usableSpace - 4 then
        .done (fillPage args data a output) rest
      else
        copyLoop args rest (awaitNext args data a) (fillPage args data a output) := by
  have hcopy : copyInto (allocateStep args data a output).1
      ((args.record.drop data.srcDataOffset).take (args.usableSpace - 4))
      (allocateStep args data a output).2 = .ok (fillPage args data a output) := by
    simp [copyInto, allocateStep, fillPage, link_clearPage_self hcurrent]
  rw [copyLoop, hs]
  have hcopying : (allocateStep args data a output).1.state = .copy := rfl
  exact copyLoop_copy hsrc hcopy hcopying

theorem fillPage_self :
    (fillPage args data a output).pages a = zeros.write 4
      ((args.record.drop data.srcDataOffset).take (args.usableSpace - 4)) := by
  simp [fillPage]

theorem fillPage_apply (args : Args) (output : Output) {id : ℕ}
    (hne : id ≠ a) (hcurrent : ∀ prev ∈ data.currentOverflowPage, prev ≠ a) :
    (fillPage args data a output).pages id = (link data.currentOverflowPage a output).pages id := by
  simp only [fillPage, Function.update_of_ne hne]
  exact link_clearPage_apply hne hcurrent

/-- From the state that waits for a page on: the rest of the record ends up in a chain
of pages, in the order in which the pager handed them out.  Besides these pages only
the pointer to the first of them is written. -/
theorem copyLoop_allocate (hfresh : Fresh ans)
    (hs : data.state = .allocateOverflowPage)
    (hsrc : data.srcDataOffset < args.record.length)
    (hcurrent : ∀ prev ∈ data.currentOverflowPage, prev ∉ pageIds ans)
    (henough : (args.record.length - data.srcDataOffset) ⌈/⌉ (args.usableSpace - 4) ≤
      (pageIds ans).length) :
    ∃ first chain final unused, copyLoop args ans data output = .done final unused ∧
      pageIds ans = first :: chain ++ pageIds unused ∧
      OverflowChain final.pages (args.usableSpace - 4) (first :: chain)
        (args.record.drop data.srcDataOffset) ∧
      final.cellPayload = (link data.currentOverflowPage first output).cellPayload ∧
      ∀ id ∉ first :: chain,
        final.pages id = (link data.currentOverflowPage first output).pages id := by
  have hsize : 0 < args.usableSpace - 4 := args.dataSize_pos
  induction ans generalizing data output with
  | nil =>
    rw [ceilDiv_eq_succ (by omega) hsize] at henough
    simp [pageIds] at henough
  | cons answer rest ih =>
    cases answer with
    | error err => exact absurd mem_cons_self (hfresh.no_error err)
    | io =>
      rw [copyLoop, hs]
      exact ih hfresh.of_cons hs hsrc hcurrent henough
    | page first =>
      have hprev : ∀ prev ∈ data.currentOverflowPage, prev ≠ first := fun prev hm heq =>
        hcurrent prev hm (heq ▸ mem_cons_self)
      have hdata : args.record.drop data.srcDataOffset ≠ [] := by
        simpa [drop_eq_nil_iff] using hsrc
      rw [copyLoop_page hs hsrc hprev]
      split
      next hlast =>
        refine ⟨first, [], _, rest, rfl, rfl, ⟨hdata, ?_, ?_, ?_⟩,
          link_clearPage_cellPayload _ _ _, ?_⟩
        · rw [fillPage_self, readU32_write_disjoint _ (Or.inl le_rfl)]
          rfl
        · rw [fillPage_self, ← length_take, slice_write_self]
        · simpa [OverflowChain] using by omega
        · intro id hid
          exact fillPage_apply args output (by simpa using hid) hprev
      next hmore =>
        -- The rest of the record goes to later pages, which leave page `first` alone.
        obtain ⟨hfirst, -⟩ := nodup_cons.1 hfresh.nodup
        rw [ceilDiv_eq_succ (by omega) hsize, Nat.sub_sub] at henough
        obtain ⟨second, chain, final, unused, hrun, hids, hch, hcell, hx⟩ :=
          @ih (awaitNext args data first) (fillPage args data first output) hfresh.of_cons rfl
            (show data.srcDataOffset + (args.usableSpace - 4) < _ by omega)
            (by simpa [awaitNext] using hfirst) (by simpa [pageIds, awaitNext] using henough)
        have hnotMem : first ∉ second :: chain := fun hm =>
          hfirst (hids ▸ mem_append_left _ hm)
        have hpage : final.pages first = ((fillPage args data first output).pages first).write
            0 (u32ToBytes second) := by
          rw [hx first hnotMem]
          simp [awaitNext, link]
        rw [fillPage_self] at hpage
        have hsecond : second < 4294967296 :=
          hfresh.of_cons.lt second (hids ▸ mem_append_left _ mem_cons_self)
        refine ⟨first, second :: chain, final, unused, hrun, by rw [pageIds, hids]; rfl,
          ⟨hdata, ?_, ?_, ?_⟩, ?_, ?_⟩
        · rw [hpage]
          exact readU32_writeU32 _ 0 hsecond
        · rw [hpage, slice_write_disjoint _ (Or.inr (by simp)), ← length_take, slice_write_self]
        · rw [drop_drop]
          exact hch
        · rw [hcell]
          exact link_clearPage_cellPayload _ _ _
        · intro id hid
          obtain ⟨hne, htail⟩ := not_or.1 (mt mem_cons.2 hid)
          rw [hx id htail, ← fillPage_apply args output hne hprev]
          simp [awaitNext, link, hne]

theorem overwrite_append {front old back data : List UInt8} (hlen : data.length = old.length) :
    overwrite (front ++ old ++ back) front.length data = front ++ data ++ back := by
  have htake : (front ++ old ++ back).take front.length = front := by simp
  have hdrop : (front ++ old ++ back).drop (front.length + data.length) = back := by
    rw [hlen, ← length_append, drop_left]
  rw [overwrite, htake, hdrop]

theorem overwrite_end {front old data : List UInt8} (hlen : data.length = old.length) :
    overwrite (front ++ old) ((front ++ old).length - old.length) data = front ++ data := by
  have happend := @overwrite_append front old [] data hlen
  rw [append_nil, append_nil] at happend
  rw [length_append, Nat.add_sub_cancel, happend]

/-- The number of bytes of a record that stay in its cell. -/
def localLength (args : Args) : ℕ :=
  match localSize args.target.pageType args.usableSpace args.record.length with
  | none => args.record.length
  | some size => size - 4

/-- A record that does not fit: its front is in the cell, before the number of the first
page of a chain that holds the rest. -/
theorem fillCellPayload_spills
    (hfresh : Fresh ans) (pages : ℕ → ByteBuffer) {size : ℕ}
    (hsize : localSize args.target.pageType args.usableSpace args.record.length = some size)
    (henough : (args.record.length - (size - 4)) ⌈/⌉ (args.usableSpace - 4) ≤
      (pageIds ans).length) :
    ∃ a chain final unused, fillCellPayload args ans pages = .done final unused ∧
      pageIds ans = a :: chain ++ pageIds unused ∧
      OverflowChain final.pages (args.usableSpace - 4) (a :: chain) (args.record.drop (size - 4)) ∧
      final.cellPayload = cellHeader args.target args.record.length ++
        args.record.take (size - 4) ++ u32ToBytes a ∧
      ∀ id ∉ a :: chain, final.pages id = pages id := by
  obtain ⟨hfour, hless, -⟩ := localSize_eq_some hsize
  generalize hheader : cellHeader args.target args.record.length = header
  -- The cell after the first copy: the front of the record, and room for the pointer.
  have hcell : overwrite (header ++ replicate size 0) header.length (args.record.take (size - 4)) =
      header ++ args.record.take (size - 4) ++ replicate 4 0 := by
    have hroom : replicate size (0 : UInt8) = replicate (size - 4) 0 ++ replicate 4 0 := by
      rw [replicate_append_replicate, Nat.sub_add_cancel (by omega)]
    rw [hroom, ← append_assoc]
    exact overwrite_append (by simp; omega)
  let awaiting : CopyData :=
    { state := .allocateOverflowPage, spaceLeftOnCurPage := size - 4, srcDataOffset := size - 4,
      dstDataOffset := header.length, currentOverflowPage := none }
  let copied : Output :=
    { cellPayload := header ++ args.record.take (size - 4) ++ replicate 4 0, pages := pages }
  have hstart : fillCellPayload args ans pages = copyLoop args ans awaiting copied := by
    simp only [fillCellPayload, hsize, hheader]
    rw [copyLoop_copy (by dsimp only; omega) (by rw [copyInto, drop_zero, hcell]) (by rfl)]
    rw [if_neg (by dsimp only; omega), Nat.zero_add]
  obtain ⟨a, chain, final, unused, hrun, hids, hch, hpayload, hx⟩ :=
    @copyLoop_allocate args awaiting ans copied hfresh rfl (show size - 4 < _ by omega)
      (by simp [awaiting]) henough
  refine ⟨a, chain, final, unused, hstart.trans hrun, hids, hch, ?_, hx⟩
  rw [hpayload]
  exact overwrite_end (show (u32ToBytes a).length = (replicate 4 0).length from rfl)

end Turso.Overflow
