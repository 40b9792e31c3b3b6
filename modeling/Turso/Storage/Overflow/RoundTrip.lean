import Turso.Storage.Overflow.Read

/-!
# The payload round trip

A cell built by `fill_cell_payload` is read back by `read_btree_cell`, and its record by
`process_overflow_read`.  The reader finds the payload size in the header of the cell
and computes from it how much of the payload is local; `readLocalPayload_fits` and
`readLocalPayload_spills` say that it cuts the cell where the writer did.  The header in
front is dealt with once per cell layout (`readBtreeCell_eq`).
-/

namespace Turso.Overflow

open ByteBuffer List CellTarget Option

variable {page rest : List UInt8} {pos usableSize : ℕ}

/-! ## The local part -/

theorem readLocalPayload_fits {r tail : List UInt8} {pageType : PageType}
    (hp : page.drop pos = r ++ tail) (hr : 1 ≤ r.length)
    (hfits : localSize pageType usableSize r.length = none) :
    readLocalPayload page pageType pos r.length usableSize = .ok (r, none) := by
  have hlen : page.length - pos = r.length + tail.length := by
    rw [← length_drop, hp, length_append]
  have htake : (page.drop pos).take (page.length - pos) = r ++ tail := by
    rw [← length_drop, take_length, hp]
  simp only [readLocalPayload, hfits, getD_none]
  rw [if_pos (by omega), htake, readPayload, if_pos (by simp), take_left]

theorem readLocalPayload_spills {front tail : List UInt8} {pageType : PageType}
    {payloadSize size a : ℕ}
    (hp : page.drop pos = front ++ u32ToBytes a ++ tail)
    (hsize : localSize pageType usableSize payloadSize = some size)
    (hfront : front.length + 4 = size) (hless : size < payloadSize) (ha : a < 4294967296) :
    readLocalPayload page pageType pos payloadSize usableSize = .ok (front, some a) := by
  have hunread : (front ++ u32ToBytes a).length = size := by simpa using hfront
  have hlen : page.length - pos = size + tail.length := by
    rw [← length_drop, hp, length_append, hunread]
  simp only [readLocalPayload, hsize, getD_some]
  rw [if_pos (by omega), hp, ← hunread, take_left, readPayload]
  rw [if_neg (by omega), if_neg (by omega), hunread, ← hfront, Nat.add_sub_cancel, take_left,
    drop_left, ofBytes_u32ToBytes ha]

/-! ## The header -/

/-- The cell that reading back should give, for the targets that carry a payload. -/
def CellTarget.cell? (payload : List UInt8) (payloadSize : ℕ) (firstOverflowPage : Option ℕ) :
    CellTarget → Option BTreeCell
  | .tableLeaf intKey => some (.tableLeafCell intKey payload payloadSize firstOverflowPage)
  | .indexLeaf => some (.indexLeafCell payload payloadSize firstOverflowPage)
  | .indexInterior leftChildPage =>
    some (.indexInteriorCell leftChildPage.toNat payload payloadSize firstOverflowPage)
  | .tableInterior => none

theorem drop_add_of_drop_eq {front : List UInt8} (hp : page.drop pos = front ++ rest) :
    page.drop (pos + front.length) = rest := by
  rw [← drop_drop, hp, drop_left]

theorem writeVarint_ne_nil {v : ℕ} (hv : v < 2 ^ 64) : writeVarint v ≠ [] := by
  intro hnil
  have hread := readVarint_writeVarint hv []
  rw [hnil] at hread
  cases hread

/-- A varint written at `pos` is read there, and what follows it comes next. -/
theorem readVarint_at {v : ℕ} (hv : v < 2 ^ 64) (hp : page.drop pos = writeVarint v ++ rest) :
    sliceFrom page pos = .ok (page.drop pos) ∧
      readVarint (page.drop pos) = .ok (v, (writeVarint v).length) ∧
      page.drop (pos + (writeVarint v).length) = rest := by
  have hpos : pos ≤ page.length := by
    by_contra hpast
    rw [drop_of_length_le (by omega)] at hp
    exact writeVarint_ne_nil hv (append_eq_nil_iff.1 hp.symm).1
  refine ⟨if_pos hpos, ?_, drop_add_of_drop_eq hp⟩
  rw [hp, readVarint_writeVarint hv]

theorem readLeftChildPage_at (leftChildPage : UInt32)
    (hp : page.drop pos = u32ToBytes leftChildPage.toNat ++ rest) :
    readLeftChildPage page pos = .ok leftChildPage.toNat := by
  have hlen := congrArg length hp
  simp only [length_drop, length_append, length_u32ToBytes] at hlen
  have htake : (page.drop pos).take 4 = u32ToBytes leftChildPage.toNat := by
    rw [hp, ← length_u32ToBytes leftChildPage.toNat, take_left]
  rw [readLeftChildPage, if_pos (by omega), htake, ofBytes_u32ToBytes leftChildPage.toNat_lt]

/-- The reader gets past the header of a cell and leaves the payload to
`readLocalPayload`. -/
theorem readBtreeCell_eq {body : List UInt8} {target : CellTarget} {payloadSize : ℕ}
    {payload : List UInt8} {a : Option ℕ} {cell : BTreeCell} (hsize : payloadSize < 2 ^ 64)
    (hp : page.drop pos = cellHeader target payloadSize ++ body)
    (hlocal : readLocalPayload page target.pageType
      (pos + (cellHeader target payloadSize).length) payloadSize usableSize =
      .ok (payload, a)) (hcell : target.cell? payload payloadSize a = some cell) :
    readBtreeCell page target.pageType pos usableSize = .ok cell := by
  cases target with
  | tableLeaf intKey =>
    obtain rfl := some.inj hcell
    simp only [cellHeader, append_assoc, length_append, ← Nat.add_assoc,
      pageType] at hp hlocal
    obtain ⟨hslice, hread, hrest⟩ := readVarint_at hsize hp
    obtain ⟨hslice', hread', -⟩ := readVarint_at intKey.toUInt64.toNat_lt hrest
    simp [readBtreeCell, pageType, hslice, hread, hslice', hread', hlocal, bind,
      Except.bind, pure, Except.pure]
  | indexLeaf =>
    obtain rfl := some.inj hcell
    obtain ⟨hslice, hread, -⟩ := readVarint_at hsize hp
    simp only [cellHeader, pageType] at hlocal
    simp [readBtreeCell, pageType, hslice, hread, hlocal, bind, Except.bind, pure,
      Except.pure]
  | indexInterior leftChildPage =>
    obtain rfl := some.inj hcell
    simp only [cellHeader, append_assoc, length_append, ← Nat.add_assoc,
      pageType, length_u32ToBytes] at hp hlocal
    have hleft := readLeftChildPage_at leftChildPage hp
    obtain ⟨hslice, hread, -⟩ := readVarint_at hsize (drop_add_of_drop_eq hp)
    rw [length_u32ToBytes] at hslice hread
    simp [readBtreeCell, pageType, hleft, hslice, hread, hlocal, bind, Except.bind,
      pure, Except.pure]
  | tableInterior => cases hcell

/-! ## The round trip -/

/-- The number of overflow pages of a record. -/
def overflowPageCount (args : Args) : ℕ :=
  if payloadOverflowThresholdMax args.target.pageType args.usableSpace < args.record.length then
    (args.record.length - localLength args) ⌈/⌉ (args.usableSpace - 4)
  else 0

/-- What reading a cell back comes to: the cell has the given key, the local part of
the record as its payload and the size of the whole record; and the record itself is
the payload, or is collected from the chain, however often the reading has to wait and
whatever happens to other pages. -/
structure ReadsBack (args : Args) (pages : ℕ → ByteBuffer) (chain : List ℕ)
    (payload : List UInt8) (first : Option ℕ) : Prop where
  payload_eq : payload = args.record.take (localLength args)
  of_none : first = none → payload = args.record
  of_some : ∀ start, first = some start → ∀ pages', (∀ id ∈ chain, pages' id = pages id) →
    ∀ waits : List Bool, overflowPageCount args < waits.count false →
      processOverflowRead
        { layout := args.layout, pages := pages', payload := payload, startNextPage := start,
          payloadSize := args.record.length } waits none = .done args.record

/-- Building a cell and reading it back gives the record: the run ends once the pager
has handed out as many pages as the record needs, the cell keeps as many bytes as the
reader's `payload_overflows` says, and wherever the cell is put on a page, it is read
back as built. -/
theorem fillCellPayload_roundTrip (args : Args) (hrecord : 1 ≤ args.record.length)
    (hlength : args.record.length < 2 ^ 64) (pages : ℕ → ByteBuffer)
    {answers : List AllocateAnswer} (hfresh : Fresh answers)
    (henough : overflowPageCount args ≤ (pageIds answers).length) :
    ∃ output unused chain, fillCellPayload args answers pages = .done output unused ∧
      pageIds answers = chain ++ pageIds unused ∧
      chain.length = overflowPageCount args ∧
      output.cellPayload.length = (cellHeader args.target args.record.length).length +
        (localSize args.target.pageType args.usableSpace args.record.length).getD
          args.record.length ∧
      (∀ id ∉ chain, output.pages id = pages id) ∧
      ∃ payload first, ReadsBack args output.pages chain payload first ∧
        ∀ page pos, output.cellPayload <+: page.drop pos →
          ∀ cell ∈ args.target.cell? payload args.record.length first,
            readBtreeCell page args.target.pageType pos args.usableSpace = .ok cell := by
  cases hlocal : localSize args.target.pageType args.usableSpace args.record.length with
  | none =>
    have hfits := localSize_eq_none_iff.1 hlocal
    have hcount : overflowPageCount args = 0 := if_neg (by omega)
    refine ⟨⟨cellHeader args.target args.record.length ++ args.record, pages⟩, answers, [],
      by simp only [fillCellPayload, hlocal], rfl, hcount.symm, by simp, fun _ _ => rfl,
      args.record, none, ?_, ?_⟩
    · refine ⟨?_, fun _ => rfl, by simp⟩
      simp [localLength, hlocal]
    · rintro page pos ⟨tail, htail⟩ cell hcell
      rw [append_assoc] at htail
      refine readBtreeCell_eq hlength htail.symm ?_ hcell
      exact readLocalPayload_fits (drop_add_of_drop_eq htail.symm) hrecord hlocal
  | some size =>
    have hspills := mt localSize_eq_none_iff.2 (by rw [hlocal]; simp)
    obtain ⟨hfour, hless, -⟩ := localSize_eq_some hlocal
    have hkept : localLength args = size - 4 := by simp only [localLength, hlocal]
    have hcount : overflowPageCount args =
        (args.record.length - (size - 4)) ⌈/⌉ (args.usableSpace - 4) := by
      rw [overflowPageCount, if_pos (by omega), hkept]
    rw [hcount] at henough
    obtain ⟨start, rest, output, unused, hrun, hids, hchain, hcell, hother⟩ :=
      fillCellPayload_spills hfresh pages hlocal henough
    have hlen := hchain.length_eq args.dataSize_pos
    rw [length_drop, ← hcount] at hlen
    have hmem : ∀ id ∈ start :: rest, id ∈ pageIds answers := fun id hid =>
      hids ▸ mem_append_left _ hid
    have hfront : (args.record.take (size - 4)).length = size - 4 := by simp; omega
    refine ⟨output, unused, start :: rest, hrun, hids, hlen, ?_, hother,
      args.record.take (size - 4), some start, ?_, ?_⟩
    · simp only [hcell, length_append, hfront, length_u32ToBytes, getD_some]
      omega
    · refine ⟨by rw [hkept], by simp, ?_⟩
      intro _ hstart pages' hagree waits hwaits
      obtain rfl := some.inj hstart
      have hread := @processOverflowRead_chain (args.record.drop (size - 4))
        { layout := args.layout, pages := pages', payload := args.record.take (size - 4),
          startNextPage := start, payloadSize := args.record.length } rest (hchain.congr hagree)
        (fun id hid => (hfresh.pos id (hmem id (mem_cons_of_mem _ hid))).ne')
        (by simp; omega) waits (by rw [length_cons] at hlen; omega)
      rw [hread, take_append_drop]
    · rintro page pos ⟨tail, htail⟩ cell hmember
      rw [hcell, append_assoc, append_assoc] at htail
      refine readBtreeCell_eq hlength htail.symm ?_ hmember
      have hbody := drop_add_of_drop_eq htail.symm
      rw [← append_assoc] at hbody
      exact readLocalPayload_spills hbody hlocal (by omega) hless
        (hfresh.lt start (hmem start mem_cons_self))

/-- A table leaf record of 600 bytes on pages of 512 bytes. -/
def spilledRecord : Args where
  layout := .smallest
  target := .tableLeaf 7
  record := replicate 600 1

theorem fillCellPayload_roundTrip_spilledRecord : overflowPageCount spilledRecord = 1 ∧
      ∃ output unused, fillCellPayload spilledRecord [.io, .page 3, .page 4]
        (fun _ => zeros) = .done output unused := by
  have hlength : spilledRecord.record.length = 600 := length_replicate
  have husable : spilledRecord.usableSpace = 512 := rfl
  have hcount : overflowPageCount spilledRecord = 1 := by
    simp only [overflowPageCount, localLength, localSize, hlength, husable]
    decide
  have hfresh : Fresh [.io, .page 3, .page 4] := ⟨by simp, by decide, by decide, by decide⟩
  obtain ⟨output, unused, -, hrun, -⟩ := fillCellPayload_roundTrip spilledRecord
    (by omega) (by omega) (fun _ => zeros) hfresh (by rw [hcount]; decide)
  exact ⟨hcount, output, unused, hrun⟩

end Turso.Overflow
