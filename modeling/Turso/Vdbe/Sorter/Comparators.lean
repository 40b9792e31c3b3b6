import Turso.Foundation.Lexicographic
import Turso.Vdbe.Sorter.NormalizedKey

/-!
# Custom comparators

A column of the sort key can have a comparator of its own: that of a custom type or of an external
collation (`SortComparator`, `core/vdbe/sorter.rs`).  Where the first column has one, its normalized
key says nothing.  `cmp_eq_fullCmp` says that records compare as their whole keys do, whatever the
comparators are; the order is a total preorder if the comparators are (`transCmp_cmp`).

The comparators of custom types (`make_sort_comparator`, `core/vdbe/execute.rs`) are total preorders on
the values of their type only.  That of unsigned integers is one of them (`testUintLt`).
-/

namespace Turso.Sorter

open Lexicographic
open Std (TransCmp OrientedCmp)

/-! ## Comparing keys -/

/-- `SortComparator`.  It fails only where memory cannot be allocated, which ends the process. -/
abbrev SortComparator := ValueRef → ValueRef → Ordering

/-- The values of the key of a record: `ArenaSortableRecord::new` reads as many as the sorter has
columns. -/
abbrev Key (keyLen : ℕ) := {values : List ValueRef // values.length = keyLen}

/-- The comparator of the first column. -/
def firstComparator : List (Option SortComparator) → Option SortComparator
  | some comparator :: _ => some comparator
  | _ => none

/-- `normalized_first_key`. -/
def normalizedKey (comparators : List (Option SortComparator)) (keyInfo : List KeyInfo)
    (values : List ValueRef) : ℕ × Bool :=
  if (firstComparator comparators).isSome then (0, false) else normalizedFirstKey values keyInfo

variable (locales : LocaleCollations)

/-- The comparison of one column. -/
def compareColumn (comparator : Option SortComparator) (key : KeyInfo) (first second : ValueRef) :
    Ordering :=
  match comparator with
  | some comparator => key.cmpWithSort (comparator first second) first second
  | none => key.cmpInColumn locales first second

/-- The loop of `full_cmp`. -/
def fullCmpLoop :
    List (Option SortComparator) → List KeyInfo → List ValueRef → List ValueRef → Ordering
  | comparators, key :: keys, first :: firsts, second :: seconds =>
    match compareColumn locales (firstComparator comparators) key first second with
    | .eq => fullCmpLoop comparators.tail keys firsts seconds
    | other => other
  | _, _, _, _ => .eq

variable (comparators : List (Option SortComparator)) (keyInfo : List KeyInfo) {keyLen : ℕ}

/-- `full_cmp`. -/
def fullCmp (first second : Key keyLen) : Ordering :=
  fullCmpLoop locales comparators keyInfo first second

/-- `ArenaSortableRecord::cmp`. -/
def cmp (first second : Key keyLen) : Ordering :=
  match compare (normalizedKey comparators keyInfo first).1
      (normalizedKey comparators keyInfo second).1 with
  | .eq =>
    if (normalizedKey comparators keyInfo first).2 ∧ (normalizedKey comparators keyInfo second).2 then
      .eq
    else fullCmp locales comparators keyInfo first second
  | other => other

/-! ## The normalized keys agree -/

variable {first second : Key keyLen}

variable {locales comparators keyInfo}

theorem normalizedKey_of_ne {values : List ValueRef}
    (hne : normalizedKey comparators keyInfo values ≠ (0, false)) :
    firstComparator comparators = none ∧
      ∀ values', normalizedKey comparators keyInfo values' = normalizedFirstKey values' keyInfo := by
  cases ha : firstComparator comparators with
  | some comparator => simp [normalizedKey, ha] at hne
  | none => simp [normalizedKey, ha]

/-- A smaller normalized key is that of a smaller key: the first column has no comparator of its own
and decides. -/
theorem fullCmp_of_norm_lt (hlt : (normalizedKey comparators keyInfo first).1 <
      (normalizedKey comparators keyInfo second).1) :
    fullCmp locales comparators keyInfo first second = .lt ∧
      fullCmp locales comparators keyInfo second first = .gt := by
  obtain ⟨hno, hnorm⟩ := @normalizedKey_of_ne comparators keyInfo second fun hzero => by
    simp [hzero] at hlt
  rw [hnorm, hnorm] at hlt
  obtain ⟨k, keys, v, rest, v', rest', rfl, ha, hb, hcolumn⟩ :=
    @cmpInColumn_of_norm_lt locales _ _ _ (first.2.trans second.2.symm) hlt
  have hless : compareColumn locales (firstComparator comparators) k v v' = .lt := by
    rw [hno]
    exact hcolumn
  have hgreater : compareColumn locales (firstComparator comparators) k v' v = .gt := by
    rw [hno]
    exact @OrientedCmp.gt_of_lt _ (k.cmpInColumn locales) _ _ _ hcolumn
  constructor
  · rw [fullCmp, ha, hb, fullCmpLoop, hless]
  · rw [fullCmp, ha, hb, fullCmpLoop, hgreater]

/-- Equal normalized keys that decide are those of equal keys. -/
theorem fullCmp_of_norm_decisive (hsame : (normalizedKey comparators keyInfo first).1 =
      (normalizedKey comparators keyInfo second).1)
    (ha : (normalizedKey comparators keyInfo first).2 = true)
    (hb : (normalizedKey comparators keyInfo second).2 = true) :
    fullCmp locales comparators keyInfo first second = .eq := by
  obtain ⟨hno, hnorm⟩ := @normalizedKey_of_ne comparators keyInfo first fun hzero => by
    simp [hzero] at ha
  rw [hnorm, hnorm] at hsame
  rw [hnorm] at ha hb
  obtain ⟨k, v, rfl, hvalues, hvalues'⟩ :=
    eq_of_norm_decisive (first.2.trans second.2.symm) hsame ha hb
  have hself : compareColumn locales (firstComparator comparators) k v v = .eq := by
    rw [hno]
    exact (Std.ReflCmp.compare_self : k.cmpInColumn locales v v = .eq)
  rw [fullCmp, hvalues, hvalues', fullCmpLoop, hself]
  rfl

/-- The normalized keys decide as the whole keys would. -/
theorem cmp_eq_fullCmp (first second : Key keyLen) :
    cmp locales comparators keyInfo first second = fullCmp locales comparators keyInfo first second := by
  unfold cmp
  cases hnorm : compare (normalizedKey comparators keyInfo first).1
      (normalizedKey comparators keyInfo second).1 with
  | lt => exact (fullCmp_of_norm_lt (Nat.compare_eq_lt.1 hnorm)).1.symm
  | gt => exact (fullCmp_of_norm_lt (Nat.compare_eq_gt.1 hnorm)).2.symm
  | eq =>
    split_ifs with hdecisive
    · exact (fullCmp_of_norm_decisive (Nat.compare_eq_eq.1 hnorm) hdecisive.1 hdecisive.2).symm
    · rfl

/-! ## Total preorders -/

/-- What the order of the sorter needs of a comparator: a total preorder with NULL below the other
values. -/
structure LawfulComparator (comparator : SortComparator) : Prop where
  transCmp : TransCmp comparator
  null_lt : ∀ value, value ≠ .null → comparator .null value = .lt

theorem transCmp_compareColumn {comparator : Option SortComparator}
    (hlawful : ∀ custom, comparator = some custom → LawfulComparator custom) (k : KeyInfo) :
    TransCmp (compareColumn locales comparator k) := by
  cases comparator with
  | none => exact inferInstanceAs (TransCmp (k.cmpInColumn locales))
  | some custom =>
    have htrans := (hlawful custom rfl).transCmp
    exact k.transCmp_cmpWithSort (hlawful custom rfl).null_lt

theorem mem_of_firstComparator {custom : SortComparator}
    (h : firstComparator comparators = some custom) : some custom ∈ comparators := by
  match comparators, h with
  | some comparator :: rest, h =>
    rw [← h]
    exact List.mem_cons_self

variable (locales) in
/-- The comparisons of the columns. -/
def columnComparisons : List (Option SortComparator) → List KeyInfo → List SortComparator
  | _, [] => []
  | comparators, key :: keys =>
    compareColumn locales (firstComparator comparators) key ::
      columnComparisons comparators.tail keys

theorem transCmp_columnComparisons
    (hlawful : ∀ custom, some custom ∈ comparators → LawfulComparator custom) :
    ∀ comparison ∈ columnComparisons locales comparators keyInfo, TransCmp comparison := by
  induction keyInfo generalizing comparators with
  | nil => exact List.forall_mem_nil _
  | cons k keys ih =>
    refine List.forall_mem_cons.2 ⟨?_, ?_⟩
    · exact transCmp_compareColumn (fun custom h => hlawful custom (mem_of_firstComparator h)) k
    · exact ih fun custom h => hlawful custom (List.mem_of_mem_tail h)

theorem fullCmpLoop_eq_compareLists (first second : List ValueRef) :
    fullCmpLoop locales comparators keyInfo first second =
      compareLists (columnComparisons locales comparators keyInfo) first second := by
  induction keyInfo generalizing comparators first second with
  | nil => rfl
  | cons k keys ih =>
    cases first with
    | nil => rfl
    | cons v values =>
      cases second with
      | nil => rfl
      | cons v' values' =>
        cases hcompare : compareColumn locales (firstComparator comparators) k v v' <;>
          simp [fullCmpLoop, columnComparisons, compareLists, ih, hcompare]

/-- Lawful comparators make the order of the records a total preorder. -/
theorem transCmp_cmp (hlawful : ∀ custom, some custom ∈ comparators → LawfulComparator custom) :
    TransCmp (@cmp locales comparators keyInfo keyLen) where
  eq_swap := by
    intro first second
    rw [cmp_eq_fullCmp, cmp_eq_fullCmp, fullCmp, fullCmp, fullCmpLoop_eq_compareLists,
      fullCmpLoop_eq_compareLists]
    exact compareLists_swap
      (fun comparison h => (transCmp_columnComparisons hlawful comparison h).toOrientedCmp) _ _
  isLE_trans := by
    intro first second third hle hle'
    rw [cmp_eq_fullCmp, fullCmp, fullCmpLoop_eq_compareLists] at *
    exact compareLists_trans (transCmp_columnComparisons hlawful) (first.2.trans second.2.symm)
      (second.2.trans third.2.symm) hle hle'

/-! ## Records -/

/-- `ArenaSortableRecord`: a record with its key, whose normalized key the code keeps with it. -/
structure SortableRecord (keyLen : ℕ) where
  payload : Bytes
  key : Key keyLen
  deriving DecidableEq

/-! ## Soundness -/

/-- Normalized keys are sound whatever the comparators: a smaller one is that of a key that the full
comparison orders strictly first, equal ones that both decide are those of equal keys, and so records
compare as the full comparison says.  With comparators that are total preorders, NULL lowest, this is
a total preorder. -/
theorem normalized_keys_sound (locales : LocaleCollations)
    (comparators : List (Option SortComparator)) (keyInfo : List KeyInfo) (keyLen : ℕ) :
    (∀ first second : Key keyLen,
      (normalizedKey comparators keyInfo first).1 < (normalizedKey comparators keyInfo second).1 →
        fullCmp locales comparators keyInfo first second = .lt) ∧
    (∀ first second : Key keyLen,
      (normalizedKey comparators keyInfo first).1 = (normalizedKey comparators keyInfo second).1 →
      (normalizedKey comparators keyInfo first).2 = true →
      (normalizedKey comparators keyInfo second).2 = true →
        fullCmp locales comparators keyInfo first second = .eq) ∧
    (∀ first second : Key keyLen, cmp locales comparators keyInfo first second =
        fullCmp locales comparators keyInfo first second) ∧
    ((∀ custom, some custom ∈ comparators → LawfulComparator custom) →
      TransCmp (@cmp locales comparators keyInfo keyLen)) := by
  refine ⟨?_, ?_, cmp_eq_fullCmp, transCmp_cmp⟩
  · exact fun first second hlt => (fullCmp_of_norm_lt hlt).1
  · exact fun first second hsame hfirst hsecond => fullCmp_of_norm_decisive hsame hfirst hsecond

/-! ## The comparator of unsigned integers -/

/-- The digits of a number, the first of them first. -/
def parseDigits : ℕ → Bytes → Option ℕ
  | value, [] => some value
  | value, byte :: bytes =>
    if 48 ≤ byte ∧ byte ≤ 57 then parseDigits (value * 10 + (byte.toNat - 48)) bytes else none

/-- `parse::<u64>`. -/
def parseU64 (text : Bytes) : Option ℕ :=
  let digits := match text with
    | 43 :: rest => rest
    | _ => text
  if digits = [] then none else (parseDigits 0 digits).filter (· < 2 ^ 64)

/-- `to_u64` of the comparator. -/
def toU64 : ValueRef → Option ℕ
  | .numeric (.integer value) => if 0 ≤ value.toInt then some value.toInt.toNat else none
  | .text text => parseU64 text
  | _ => none

/-- The comparator of `TestUintLt`. -/
def testUintLt : SortComparator
  | .null, .null => .eq
  | .null, _ => .lt
  | _, .null => .gt
  | first, second =>
    match toU64 first, toU64 second with
    | some first, some second => compare first second
    | _, _ => first.cmp second

/-- An ascending column of unsigned integers. -/
def uintColumn : KeyInfo := ⟨.asc, .binary, none⟩

/-- A key of one value. -/
def singleKey (value : ValueRef) : Key 1 := ⟨[value], rfl⟩

/-- On values that are not all unsigned integers the order is not transitive: `'3'` is below `5`, which
is below `'!'`, which is below `'3'`. -/
theorem testUintLt_not_transitive : ¬ TransCmp (@cmp emptyLocales [some testUintLt] [uintColumn] 1) := by
  intro htrans
  have hfirst : cmp emptyLocales [some testUintLt] [uintColumn] (singleKey (.text [51]))
      (singleKey (.numeric (.integer 5))) = .lt := rfl
  have hsecond : cmp emptyLocales [some testUintLt] [uintColumn] (singleKey (.numeric (.integer 5)))
      (singleKey (.text [33])) = .lt := rfl
  have hthird : cmp emptyLocales [some testUintLt] [uintColumn] (singleKey (.text [33]))
      (singleKey (.text [51])) = .lt := rfl
  have hcycle := htrans.lt_trans (htrans.lt_trans hfirst hsecond) hthird
  have hself : cmp emptyLocales [some testUintLt] [uintColumn] (singleKey (.text [51]))
      (singleKey (.text [51])) = .eq := rfl
  cases hcycle

/-- Two columns, the first with a comparator of its own. -/
theorem normalized_keys_sound_two_columns : ∃ custom : SortComparator, LawfulComparator custom ∧
    TransCmp (@cmp emptyLocales [some custom, none] [uintColumn, uintColumn] 2) := by
  have hlawful : LawfulComparator (ValueRef.compareImmutableSingle emptyLocales .noCase) :=
    { transCmp := inferInstance
      null_lt := fun _ => ValueRef.compareImmutableSingle_null_left emptyLocales .noCase }
  refine ⟨_, hlawful, (normalized_keys_sound emptyLocales _ _ _).2.2.2 fun custom hmem => ?_⟩
  simp only [List.mem_cons, Option.some.injEq, reduceCtorEq, List.not_mem_nil, or_false] at hmem
  rw [hmem]
  exact hlawful

end Turso.Sorter
