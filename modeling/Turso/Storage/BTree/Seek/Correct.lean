import Turso.Storage.BTree.Seek.Index
import Turso.Storage.BTree.Seek.Table
import Turso.Types.RecordCompare

/-!
# Seeks find what the operator denotes

The two kinds of trees together.  An index is compared by its columns, and its records ascend in
them; so they ascend in comparison with every key, which has the values of some first columns
(`Index.records_ascending`).  A seek ends in a state that the next one can start in.
-/

namespace Turso.BTree

open Resumable

variable {Payload : Type}

/-! ## Indexes in order -/

/-- A well-formed index, with the columns of its records. -/
structure Index (Payload : Type) extends Tree Payload where
  locales : LocaleCollations
  info : IndexInfo
  columns : Payload → List ValueRef
  isIndex_eq : isIndex = true
  complete : ∀ record ∈ entries store isIndex height root,
    info.keyInfo.length ≤ (columns record).length
  ascending : (entries store isIndex height root).Pairwise fun first second =>
    info.cmp locales (columns first) (columns second) ≠ .gt

variable (index : Index Payload) (values : List ValueRef)

/-- How a record compares with a key. -/
def Index.cmpKey (record : Payload) : Ordering :=
  index.info.cmp index.locales (index.columns record) values

/-- The key of a seek, with the comparer that `find_compare` chooses for it. -/
def Index.key (overflows : Payload → Bool) : IndexKey Payload where
  comparePayload record tieBreaker :=
    (findCompare index.info values).comparePayload index.locales index.info (index.columns record)
      values tieBreaker
  overflows := overflows

theorem Index.records_ascending (i : Index Payload) (values : List ValueRef) :
    Ascending (i.cmpKey values) i.records := by
  refine i.ascending.imp_of_mem fun {a b} ha hb hle => ?_
  exact compareColumns_mono (i.complete a ha) (i.complete b hb) hle values

/-! ## Both kinds of trees -/

/-- `seek` completes where its search does. -/
theorem completes_seek {st : Store Payload} {k : SeekKey Payload} {op : SeekOp}
    {search : List ReadAnswer → SeekCursor → Turn SeekCursor ReadAnswer}
    (hsearch : ∀ ans cursor, seek st k op ans cursor =
      (search ans cursor).map id ({ · with seekState := .start }))
    {cursor final : SeekCursor} (h : Completes search cursor final) :
    Completes (seek st k op) cursor { final with seekState := .start } :=
  @Completes.lift _ _ _ _ (seek st k op) id ({ · with seekState := .start }) hsearch _ _ h

/-- Every seek, in a table for every rowid and in an index for every key, lands on the entry
that its operator denotes, wherever it yields.  It reports `found` on that entry, `tryAdvance`
one step before it, and `notFound` only where there is none. -/
theorem seek_correct (op : SeekOp) :
    (∀ (table : Table Payload) (rowid : ℤ) (cursor : SeekCursor), cursor.Ready table.toTree →
      ∃ final, Completes (seek table.store (.tableRowId table.rowidOf rowid) op) cursor final ∧
        Lands op table.toTree final (denoted op (cmpRowid table.rowidOf rowid) table.records) ∧
        final.Ready table.toTree) ∧
    ∀ (index : Index Payload) (values : List ValueRef) (overflows : Payload → Bool)
      (cursor : SeekCursor), cursor.Ready index.toTree →
      ∃ final, Completes (seek index.store (.indexKey (index.key values overflows)) op) cursor
          final ∧
        Lands op index.toTree final (denoted op (index.cmpKey values) index.records) ∧
        final.Ready index.toTree := by
  refine ⟨fun table rowid cursor hready => ?_, fun index values overflows cursor hready => ?_⟩
  · obtain ⟨final, hcompletes, hlands, hfinal⟩ := tablebtreeSeek_lands op rowid hready
    exact ⟨_, completes_seek (fun _ _ => rfl) hcompletes, hlands, hfinal⟩
  · obtain ⟨final, hcompletes, hlands, hfinal⟩ := @indexbtreeSeek_lands _ index.toTree
      (index.cmpKey values) (index.key values overflows) index.isIndex_eq op
      (fun record tieBreaker => comparePayload_findCompare index.info (index.columns record) values
        tieBreaker)
      (index.records_ascending values) cursor hready
    exact ⟨_, completes_seek (fun _ _ => rfl) hcompletes, hlands, hfinal⟩

/-- A table of two rows. -/
def twoRows : Table ℕ where
  store _ := ⟨.tableLeaf, [⟨0, 10⟩, ⟨0, 20⟩], 0⟩
  isIndex := false
  root := 1
  height := 0
  wellFormed := ⟨rfl, by decide⟩
  nodup := by decide
  height_lt := by decide
  rowidOf := (↑)
  isTable := rfl
  separated := trivial
  ascending := by decide
  inRange := by decide

/-- `twoLeaves` as a descending index of one column. -/
def twoLeavesColumn (record : ℕ) : List ValueRef := [.numeric (.integer (.ofInt (-record)))]

def twoLeavesIndex : Index ℕ where
  toTree := twoLeaves
  locales := emptyLocales
  info := ⟨[⟨.desc, .binary, none⟩], List.cons_ne_nil _ _, 1⟩
  columns := twoLeavesColumn
  isIndex_eq := rfl
  complete := by decide
  ascending := by decide

/-- The last row before 15, and the records from the column -20 on. -/
theorem seek_correct_twoRows :
    (∃ final, Completes (seek twoRows.store (.tableRowId twoRows.rowidOf 15) .lt)
        { rootPage := 1 } final ∧ Lands .lt twoRows.toTree final [10]) ∧
      ∃ final, Completes (seek twoLeavesIndex.store
          (.indexKey (twoLeavesIndex.key (twoLeavesColumn 20) fun _ => true)) (.ge false))
          { rootPage := 1 } final ∧ Lands (.ge false) twoLeaves final [20, 30] := by
  constructor
  · obtain ⟨final, hcompletes, hlands, -⟩ := (seek_correct .lt).1 twoRows 15 _
      (SeekCursor.new_ready _)
    exact ⟨final, hcompletes, hlands⟩
  · obtain ⟨final, hcompletes, hlands, -⟩ := (seek_correct (.ge false)).2 twoLeavesIndex
      (twoLeavesColumn 20) (fun _ => true) _ (SeekCursor.new_ready _)
    exact ⟨final, hcompletes, hlands⟩

end Turso.BTree
