import Turso.Types.Value

/-!
# Comparing records

The comparison of an index record with the values of a key (`core/types.rs`), over the columns
of the record.  Columns are compared in turn, each with its collation, sort order and place of
nulls, until two differ; where none do the tie-breaker decides.

`find_compare` chooses one of three comparers.  Two of them take a shortcut for the first
column.  `RecordCompare.comparePayload_eq` says that all do the same.  Records that ascend in
all columns ascend in comparison with every key (`compareColumns_mono`), since the key is
compared with the first of them.
-/

namespace Turso

open Std (TransCmp OrientedCmp)

/-! ## One column -/

/-- `SortOrder`. -/
inductive SortOrder where
  | asc
  | desc
  deriving DecidableEq, Repr

/-- `NullsOrder`. -/
inductive NullsOrder where
  | first
  | last
  deriving DecidableEq, Repr

/-- `KeyInfo`. -/
structure KeyInfo where
  sortOrder : SortOrder
  collation : CollationSeq
  nullsOrder : Option NullsOrder
  deriving DecidableEq, Repr

def SortOrder.apply : SortOrder → Ordering → Ordering
  | asc, cmp => cmp
  | desc, cmp => cmp.swap

/-- `cmp_with_sort`. -/
def KeyInfo.cmpWithSort (key : KeyInfo) (cmp : Ordering) (first second : ValueRef) : Ordering :=
  if cmp = .eq then .eq
  else
    match key.nullsOrder with
    | none => key.sortOrder.apply cmp
    | some nullsOrder =>
      if first = .null ∨ second = .null then
        match nullsOrder with
        | .first => cmp
        | .last => cmp.swap
      else key.sortOrder.apply cmp

variable (locales : LocaleCollations)

/-- `cmp_in_column`. -/
def KeyInfo.cmpInColumn (key : KeyInfo) (first second : ValueRef) : Ordering :=
  key.cmpWithSort (ValueRef.compareImmutableSingle locales key.collation first second) first second

@[simp] theorem SortOrder.apply_eq (sortOrder : SortOrder) : sortOrder.apply .eq = .eq := by
  cases sortOrder <;> rfl

theorem SortOrder.transCmp {cmp : ValueRef → ValueRef → Ordering} [TransCmp cmp]
    (sortOrder : SortOrder) : TransCmp fun first b => sortOrder.apply (cmp first b) := by
  cases sortOrder with
  | asc => assumption
  | desc =>
    have hswap : (fun first b => SortOrder.desc.apply (cmp first b)) =
        fun first b => cmp b first := by
      funext first b
      exact OrientedCmp.eq_swap.symm
    rw [hswap]
    exact TransCmp.opposite

/-- Where nulls have a place of their own, they are compared first. -/
def NullsOrder.rank : NullsOrder → ValueRef → ℕ
  | first, value => if value = .null then 0 else 1
  | last, value => if value = .null then 1 else 0

section

variable {cmp : ValueRef → ValueRef → Ordering} [TransCmp cmp]

theorem KeyInfo.cmpWithSort_eq (k : KeyInfo) (hnull : ∀ v, v ≠ .null → cmp .null v = .lt) :
    (fun first second => k.cmpWithSort (cmp first second) first second) =
      match k.nullsOrder with
      | none => fun first second => k.sortOrder.apply (cmp first second)
      | some nullsOrder => compareLex (compareOn nullsOrder.rank) fun first second =>
        k.sortOrder.apply (cmp first second) := by
  funext first second
  rw [cmpWithSort]
  cases k.nullsOrder with
  | none =>
    dsimp only
    split_ifs with heq
    · rw [heq, SortOrder.apply_eq]
    · rfl
  | some nullsOrder =>
    rcases eq_or_ne first .null with rfl | hfirst
    · rcases eq_or_ne second .null with rfl | hsecond
      · have hself : cmp .null .null = .eq := Std.ReflCmp.compare_self
        simp [hself, compareLex, compareOn]
      · have hlt := hnull second hsecond
        cases nullsOrder <;>
          simp [hlt, compareLex, compareOn, NullsOrder.rank, hsecond, Nat.compare_eq_lt.2,
            Nat.compare_eq_gt.2]
    · rcases eq_or_ne second .null with rfl | hsecond
      · have hgt : cmp first .null = .gt := OrientedCmp.gt_of_lt (hnull first hfirst)
        cases nullsOrder <;>
          simp [hgt, compareLex, compareOn, NullsOrder.rank, hfirst, Nat.compare_eq_lt.2,
            Nat.compare_eq_gt.2]
      · have hrank : nullsOrder.rank first = nullsOrder.rank second := by
          cases nullsOrder <;> simp [NullsOrder.rank, hfirst, hsecond]
        simp only [hfirst, hsecond, or_self, if_false, compareLex, compareOn, hrank]
        split_ifs with heq
        · simp [heq]
        · simp

/-- The sort order and the place of nulls turn a total preorder with NULL below the other values into
a total preorder. -/
theorem KeyInfo.transCmp_cmpWithSort (k : KeyInfo) (hnull : ∀ v, v ≠ .null → cmp .null v = .lt) :
    TransCmp fun first second => k.cmpWithSort (cmp first second) first second := by
  have hsort := @SortOrder.transCmp cmp _ k.sortOrder
  rw [k.cmpWithSort_eq hnull]
  cases k.nullsOrder with
  | none => exact hsort
  | some nullsOrder => exact inferInstanceAs (TransCmp (compareLex (compareOn nullsOrder.rank) _))

end

instance (key : KeyInfo) : TransCmp (key.cmpInColumn locales) :=
  key.transCmp_cmpWithSort fun _ => ValueRef.compareImmutableSingle_null_left locales key.collation

/-! ## Records -/

/-- What the comparison reads of `IndexInfo`. -/
structure IndexInfo where
  keyInfo : List KeyInfo
  keyInfo_ne_nil : keyInfo ≠ []
  numCols : ℕ

variable (info : IndexInfo)

/-- `key_info[0]`. -/
def IndexInfo.firstKey : KeyInfo :=
  info.keyInfo.head info.keyInfo_ne_nil

/-- The loop of `compare_payload_generic`: column by column, as long as both sides and the index
have one. -/
def compareColumns (tieBreaker : Ordering) :
    List KeyInfo → List ValueRef → List ValueRef → Ordering
  | key :: keys, left :: lefts, right :: rights =>
    match key.cmpInColumn locales left right with
    | .eq => compareColumns tieBreaker keys lefts rights
    | other => other
  | _, _, _ => tieBreaker

variable (left right : List ValueRef)

/-- `compare_payload_generic`. -/
def comparePayloadGeneric (skip : ℕ) (tieBreaker : Ordering) : Ordering :=
  compareColumns locales tieBreaker (info.keyInfo.drop skip) (left.drop skip) (right.drop skip)

variable (tieBreaker : Ordering)

/-- `compare_payload_int`. -/
def comparePayloadInt (rhsInt : Int64) : Ordering :=
  match left with
  | .numeric (.integer lhsInt) :: _ =>
    match info.firstKey.sortOrder.apply (compare lhsInt.toInt rhsInt.toInt) with
    | .eq =>
      if 1 < right.length then comparePayloadGeneric locales info left right 1 tieBreaker
      else tieBreaker
    | other => other
  | _ => comparePayloadGeneric locales info left right 0 tieBreaker

/-- `compare_payload_string`. -/
def comparePayloadString : Ordering :=
  match left, right with
  | .text lhsText :: _, .text rhsText :: _ =>
    match info.firstKey.sortOrder.apply
        (info.firstKey.collation.compareStrings locales lhsText rhsText) with
    | .eq =>
      if compare lhsText.length rhsText.length ≠ .eq then
        info.firstKey.sortOrder.apply (compare lhsText.length rhsText.length)
      else if 1 < right.length then comparePayloadGeneric locales info left right 1 tieBreaker
      else tieBreaker
    | other => other
  | _, _ => comparePayloadGeneric locales info left right 0 tieBreaker

/-- `RecordCompare`. -/
inductive RecordCompare where
  | int (rhsFirstValue : Int64)
  | string
  | generic
  deriving DecidableEq

/-- `find_compare`. -/
def findCompare : RecordCompare :=
  if info.numCols ≤ 13 then
    match right with
    | .numeric (.integer value) :: _ => .int value
    | .text _ :: _ => if info.firstKey.collation = .binary then .string else .generic
    | _ => .generic
  else .generic

/-- `compare_payload`. -/
def RecordCompare.comparePayload (comparer : RecordCompare) (info : IndexInfo)
    (left right : List ValueRef) (tieBreaker : Ordering) : Ordering :=
  match comparer with
  | int value => comparePayloadInt locales info left right tieBreaker value
  | string => comparePayloadString locales info left right tieBreaker
  | generic => comparePayloadGeneric locales info left right 0 tieBreaker

/-- The comparison of a record with a key, without a tie-breaker. -/
def IndexInfo.cmp : Ordering :=
  compareColumns locales .eq info.keyInfo left right

variable {locales}

theorem compareColumns_then (keys : List KeyInfo) (left right : List ValueRef) :
    compareColumns locales tieBreaker keys left right =
      (compareColumns locales .eq keys left right).then tieBreaker := by
  induction keys generalizing left right with
  | nil => rfl
  | cons k keys ih =>
    cases left with
    | nil => rfl
    | cons left lefts =>
      cases right with
      | nil => rfl
      | cons right rights =>
        rw [compareColumns, compareColumns]
        cases k.cmpInColumn locales left right with
        | lt => rfl
        | gt => rfl
        | eq => exact ih lefts rights

theorem KeyInfo.cmpInColumn_of_ne_null (k : KeyInfo) {a b : ValueRef}
    (ha : a ≠ .null) (hb : b ≠ .null) :
    k.cmpInColumn locales a b = k.sortOrder.apply
      (ValueRef.compareImmutableSingle locales k.collation a b) := by
  have hnull : ¬ (a = .null ∨ b = .null) := not_or.2 ⟨ha, hb⟩
  simp only [cmpInColumn, cmpWithSort, hnull, if_false]
  split_ifs with heq
  · rw [heq, SortOrder.apply_eq]
  · cases k.nullsOrder <;> rfl

/-- Where the first column is compared by itself, the others follow if there are any. -/
theorem comparePayloadGeneric_first (left right : ValueRef) (lefts rights : List ValueRef)
    (tieBreaker : Ordering) :
    comparePayloadGeneric locales info (left :: lefts) (right :: rights) 0 tieBreaker =
      match info.firstKey.cmpInColumn locales left right with
      | .eq =>
        if 1 < (right :: rights).length then
          comparePayloadGeneric locales info (left :: lefts) (right :: rights) 1 tieBreaker
        else tieBreaker
      | other => other := by
  obtain ⟨keyInfo, hne, numCols⟩ := info
  cases keyInfo with
  | nil => exact absurd rfl hne
  | cons k keys =>
    simp only [comparePayloadGeneric, List.drop_zero, List.drop_succ_cons, compareColumns,
      IndexInfo.firstKey, List.head_cons]
    cases k.cmpInColumn locales left right with
    | lt => rfl
    | gt => rfl
    | eq =>
      cases rights with
      | nil => simp [compareColumns]
      | cons _ _ => simp

theorem comparePayloadInt_eq (rights : List ValueRef) (tieBreaker : Ordering) (rhsInt : Int64) :
    comparePayloadInt locales info left (.numeric (.integer rhsInt) :: rights) tieBreaker rhsInt =
      comparePayloadGeneric locales info left (.numeric (.integer rhsInt) :: rights) 0
        tieBreaker := by
  unfold comparePayloadInt
  split
  · rename_i lhsInt lefts
    rw [comparePayloadGeneric_first, @KeyInfo.cmpInColumn_of_ne_null _ _ (.numeric _) (.numeric _)
      nofun nofun]
    rfl
  · rfl

theorem comparePayloadString_eq (hbinary : info.firstKey.collation = .binary)
    (left right : List ValueRef) (tieBreaker : Ordering) :
    comparePayloadString locales info left right tieBreaker =
      comparePayloadGeneric locales info left right 0 tieBreaker := by
  unfold comparePayloadString
  split
  · rename_i lhsText lefts rhsText rights
    rw [comparePayloadGeneric_first, @KeyInfo.cmpInColumn_of_ne_null _ _ (.text _) (.text _)
      nofun nofun, ValueRef.compareImmutableSingle, hbinary]
    -- equal texts are equally long
    cases hcompare : compare lhsText rhsText with
    | lt | gt =>
      simp only [CollationSeq.compareStrings, hcompare]
      cases info.firstKey.sortOrder <;> rfl
    | eq =>
      have hsame : lhsText = rhsText := Std.LawfulEqOrd.eq_of_compare hcompare
      simp [CollationSeq.compareStrings, hsame]
  · rfl

/-- The comparers that may be chosen for a key. -/
def RecordCompare.Applies : RecordCompare → Prop
  | int value => right.head? = some (.numeric (.integer value))
  | string => info.firstKey.collation = .binary
  | generic => True

theorem findCompare_applies : (findCompare info right).Applies info right := by
  unfold findCompare
  by_cases hcols : info.numCols ≤ 13
  · rw [if_pos hcols]
    split
    · rfl
    · by_cases hbinary : info.firstKey.collation = .binary
      · rwa [if_pos hbinary]
      · rw [if_neg hbinary]
        trivial
    · trivial
  · rw [if_neg hcols]
    trivial

/-- Whatever the comparer, a record is compared column by column. -/
theorem RecordCompare.comparePayload_eq {comparer : RecordCompare} {info : IndexInfo}
    {right : List ValueRef} (happlies : comparer.Applies info right) (left : List ValueRef)
    (tieBreaker : Ordering) :
    comparer.comparePayload locales info left right tieBreaker =
      compareColumns locales tieBreaker info.keyInfo left right := by
  cases comparer with
  | int rhsInt =>
    cases right with
    | nil => cases happlies
    | cons rhs rights =>
      cases happlies
      exact comparePayloadInt_eq info left rights tieBreaker rhsInt
  | string => exact comparePayloadString_eq info happlies left right tieBreaker
  | generic => rfl

theorem comparePayload_findCompare :
    (findCompare info right).comparePayload locales info left right tieBreaker =
      (info.cmp locales left right).then tieBreaker := by
  rw [IndexInfo.cmp, ← compareColumns_then]
  exact RecordCompare.comparePayload_eq (findCompare_applies info right) left tieBreaker

/-- Records that ascend in all columns ascend in comparison with a key. -/
theorem compareColumns_mono {keys : List KeyInfo} {a b : List ValueRef}
    (ha : keys.length ≤ a.length) (hb : keys.length ≤ b.length)
    (hle : compareColumns locales .eq keys a b ≠ .gt) (k : List ValueRef) :
    (compareColumns locales .eq keys a k = .gt → compareColumns locales .eq keys b k = .gt) ∧
      (compareColumns locales .eq keys b k = .lt → compareColumns locales .eq keys a k = .lt) := by
  induction keys generalizing a b k with
  | nil => exact ⟨nofun, nofun⟩
  | cons info infos ih =>
    cases a with
    | nil => simp at ha
    | cons left a =>
      cases b with
      | nil => simp at hb
      | cons right b =>
        cases k with
        | nil => exact ⟨nofun, nofun⟩
        | cons v k =>
          simp only [List.length_cons, Nat.add_le_add_iff_right] at ha hb
          simp only [compareColumns] at hle ⊢
          cases hcolumn : info.cmpInColumn locales left right with
          | gt => simp [hcolumn] at hle
          | eq =>
            -- equal columns compare alike
            rw [TransCmp.congr_left hcolumn]
            rw [hcolumn] at hle
            cases info.cmpInColumn locales right v with
            | lt => exact ⟨nofun, fun _ => rfl⟩
            | gt => exact ⟨fun _ => rfl, nofun⟩
            | eq => exact ih ha hb hle k
          | lt =>
            cases hleft : info.cmpInColumn locales left v with
            | lt => exact ⟨nofun, fun _ => rfl⟩
            | eq =>
              rw [TransCmp.gt_of_gt_of_eq (OrientedCmp.gt_of_lt hcolumn) hleft]
              exact ⟨fun _ => rfl, nofun⟩
            | gt =>
              rw [TransCmp.gt_trans (OrientedCmp.gt_of_lt hcolumn) hleft]
              exact ⟨fun _ => rfl, nofun⟩

end Turso
