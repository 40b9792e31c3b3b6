import Turso.Types.RecordBytes

/-!
# Comparing the bytes of a record

The comparers on what `build` writes: whichever of them `find_compare` chooses, the columns are compared
in turn (`comparePayload_build`).
-/

namespace Turso.Record

open List SerialType
open HashTable (Value)

variable {payload data : Bytes} {values : List Value} {value : Value} {iterator mid : ValueIterator}
  {locales : LocaleCollations} {info : IndexInfo} {right : List ValueRef} {tieBreaker : Ordering}
  {serialType : SerialType}

/-! ## The kind of the first column -/

theorem code_of_tryFrom {serial : ℕ} (htype : tryFrom serial = .ok serialType) :
    serialType.code = serial := by
  unfold tryFrom at htype
  split at htype
  all_goals first
    | cases htype <;> rfl
    | split_ifs at htype <;> cases htype <;> simp only [code] <;> omega

theorem readWith_eq_ok {message : ℕ → SerialType → String} {n : ℕ}
    (hread : readWith message data serialType = .ok (value, n)) :
    serialType.size ≤ data.length ∧ decodeValue (data.take serialType.size) serialType = .ok value ∧
      n = serialType.size := by
  unfold readWith at hread
  split_ifs at hread with hshort
  cases hdecode : decodeValue (data.take serialType.size) serialType with
  | error error => simp [hdecode, Except.map] at hread
  | ok read =>
    simp only [hdecode, Except.map, Except.ok.injEq, Prod.mk.injEq] at hread
    exact ⟨Nat.le_of_not_lt hshort, by rw [hread.1], hread.2.symm⟩

/-- The serial type tells the integers and the texts among the values. -/
theorem decodeValue_kind (hdecode : decodeValue data serialType = .ok value) :
    ((∃ integer, value = .integer integer) ↔
        1 ≤ serialType.code ∧ serialType.code ≤ 6 ∨ serialType.code = 8 ∨ serialType.code = 9) ∧
      ((∃ text, value = .text text) ↔ 13 ≤ serialType.code ∧ serialType.code % 2 = 1) := by
  cases serialType with
  | f64 =>
    cases hbits : Binary64.SignedDouble.ofBits (LittleEndian.decode data.reverse) <;>
      simp [decodeValue, hbits] at hdecode <;> simp [← hdecode, code]
  | text size =>
    simp only [decodeValue] at hdecode
    split_ifs at hdecode
    cases hdecode
    simp [code]
    omega
  | blob size =>
    cases hdecode
    simp [code]
    omega
  | _ =>
    cases hdecode
    simp [code]

/-! ## The comparers -/

/-- A first column that is an integer against an integer. -/
def columnInt (info : IndexInfo) (rhsInt : Int64) : ValueRef → Option Ordering
  | .numeric (.integer lhsInt) => some (info.firstKey.sortOrder.apply (compare lhsInt.toInt rhsInt.toInt))
  | _ => none

/-- A first column that is a text against a text. -/
def columnText (locales : LocaleCollations) (info : IndexInfo) : ValueRef → ValueRef → Option Ordering
  | .text lhsText, .text rhsText => some (compareTexts locales info lhsText rhsText)
  | _, _ => none

section
variable (hnew : ValueIterator.new payload = .ok iterator)
  (hyields : Yields iterator (value :: values) mid) (hend : mid.headerSection = [])
  (hlen : payload.length < 2 ^ 64)
include hnew hyields hend hlen

/-- The first column by itself, and the others if there are any. -/
theorem compareFirst_of_yields (column : ValueRef → Option Ordering)
    {first : ℕ → Bytes → Except LimboError (Option Ordering)}
    (hfirst : ∀ serial serialType data, tryFrom serial = .ok serialType →
      (∀ message, readWith message data serialType = .ok (value, serialType.size)) →
      first serial data = .ok (column value.asRef)) :
    compareFirst locales info payload right tieBreaker first = .ok (match column value.asRef with
      | none => comparePayloadGeneric locales info ((value :: values).map Value.asRef) right 0 tieBreaker
      | some .eq =>
        if 1 < right.length then
          comparePayloadGeneric locales info ((value :: values).map Value.asRef) right 1 tieBreaker
        else tieBreaker
      | some other => other) := by
  obtain ⟨headerSize, length, hread, hat⟩ := At.of_new hnew
  obtain ⟨it', hnext, hrest⟩ : ∃ it', iterator.next = (some (.ok value), it') ∧ Yields it' values mid := by
    cases hyields with
    | cons hnext hrest => exact ⟨_, hnext, hrest⟩
  obtain ⟨serial, n, serialType, hlt, hserial, htype, hvalue, -, -⟩ := hat.next hnext
  have hpos := (readVarint_bounds hread).1
  have hle := hat.end_le
  have hheader : sliceFrom payload length = .ok (payload.drop length) := if_pos (by omega)
  have hdata : sliceFrom payload headerSize = .ok (payload.drop headerSize) := if_pos hle
  have hgeneric := @compareGeneric_of_yields _ _ _ _ _ locales info right tieBreaker [] hnew (.nil _)
    (.cons hnext hrest) hlen (.inr hend)
  have hone := @compareGeneric_of_yields _ _ _ _ _ locales info right tieBreaker [value] hnew
    (.cons hnext (.nil _)) hrest hlen (.inr hend)
  simp only [compareFirst, if_neg (show ¬ payload.length < 2 by omega), bind, Except.bind, hread,
    if_neg hle.not_gt, hheader, hserial, hdata, hfirst serial serialType _ htype hvalue]
  cases column value.asRef with
  | none => exact hgeneric
  | some order =>
    cases order with
    | lt | gt => rfl
    | eq =>
      dsimp only
      split_ifs
      · exact hone
      · rfl

theorem compareInt_of_yields (rhsInt : Int64) :
    compareInt locales info payload right tieBreaker rhsInt =
      .ok (comparePayloadInt locales info ((value :: values).map Value.asRef) right tieBreaker rhsInt) := by
  refine (compareFirst_of_yields hnew hyields hend hlen (columnInt info rhsInt)
    fun serial serialType data htype hread => ?_).trans ?_
  · have hkind := (decodeValue_kind (readWith_eq_ok (hread serialTypeMessage)).2.1).1
    rw [code_of_tryFrom htype] at hkind
    split_ifs with hinteger
    · obtain ⟨lhsInt, rfl⟩ := hkind.mpr hinteger
      simp [readValueSerialType, htype, hread, bind, Except.bind, Value.asRef, columnInt]
    · cases value with
      | integer lhsInt => exact absurd (hkind.mp ⟨_, rfl⟩) hinteger
      | _ => rfl
  · cases value with
    | integer lhsInt =>
      simp only [Value.asRef, map_cons, comparePayloadInt, columnInt]
      cases info.firstKey.sortOrder.apply (compare lhsInt.toInt rhsInt.toInt) <;> rfl
    | _ => rfl

theorem compareString_of_yields (hright : right ≠ []) :
    compareString locales info payload right tieBreaker =
      .ok (comparePayloadString locales info ((value :: values).map Value.asRef) right tieBreaker) := by
  obtain ⟨rhs, rights, rfl⟩ := exists_cons_of_ne_nil hright
  refine (compareFirst_of_yields hnew hyields hend hlen (columnText locales info · rhs)
    fun serial serialType data htype hread => ?_).trans ?_
  · have hkind := (decodeValue_kind (readWith_eq_ok (hread serialTypeMessage)).2.1).2
    rw [code_of_tryFrom htype] at hkind
    split_ifs with htext
    · obtain ⟨lhsText, rfl⟩ := hkind.mpr htext
      cases rhs with
      | text rhsText => simp [readValue, htype, hread, bind, Except.bind, Value.asRef, columnText]
      | _ => rfl
    · cases value with
      | text lhsText => exact absurd (hkind.mp ⟨_, rfl⟩) htext
      | _ => rfl
  · cases value with
    | text lhsText =>
      cases rhs with
      | text rhsText =>
        simp only [Value.asRef, map_cons, comparePayloadString, compareTexts, columnText]
        cases info.firstKey.sortOrder.apply
            (info.firstKey.collation.compareStrings locales lhsText rhsText) with
        | lt | gt => rfl
        | eq =>
          cases compare lhsText.length rhsText.length <;> cases info.firstKey.sortOrder <;> rfl
      | _ => rfl
    | _ => rfl

theorem comparePayload_of_yields {comparer : RecordCompare} (hright : right ≠ []) :
    comparePayload locales comparer info payload right tieBreaker =
      .ok (comparer.comparePayload locales info ((value :: values).map Value.asRef) right tieBreaker) := by
  cases comparer with
  | int rhsInt => exact compareInt_of_yields hnew hyields hend hlen rhsInt
  | string => exact compareString_of_yields hnew hyields hend hlen hright
  | generic =>
    exact @compareGeneric_of_yields _ _ _ _ _ locales info right tieBreaker [] hnew (.nil _) hyields hlen
      (.inr hend)

end

/-- **Every comparer that applies to a key compares a record column by column**: the result is that of the
first columns that differ, or the tie-breaker, and `find_compare` chooses one that applies. -/
theorem comparePayload_build (hutf8 : ∀ value ∈ values, hasUtf8 value = true)
    (hbuild : build values = .ok payload) (hright : right ≠ []) :
    (∀ comparer : RecordCompare, comparer.Applies info right →
      comparePayload locales comparer info payload right tieBreaker =
        .ok (compareColumns locales tieBreaker info.keyInfo (values.map Value.asRef) right)) ∧
      (findCompare info right).Applies info right := by
  obtain ⟨hfits, rfl⟩ := fits_of_build hbuild
  refine ⟨fun comparer happlies => ?_, findCompare_applies info right⟩
  have hlen : (serialize values).length < 2 ^ 64 := by
    rw [maxBlobLength] at hfits
    omega
  have hyields := @yields_values values fun value hm => ⟨hutf8 value hm, code_lt_of_fits hfits hm⟩
  cases values with
  | nil =>
    -- a record without columns is too short for a first one
    have hgeneric := @compareGeneric_of_yields _ _ _ _ _ locales info right tieBreaker []
      (new_serialize hfits) (.nil _) hyields hlen (.inr rfl)
    cases comparer <;> exact hgeneric
  | cons value values =>
    rw [← comparer.comparePayload_eq happlies]
    exact comparePayload_of_yields (new_serialize hfits) hyields rfl hlen hright

def twoColumns : IndexInfo := ⟨[⟨.asc, .binary, none⟩, ⟨.desc, .noCase, none⟩], by simp, 2⟩

/-- `(5, 'a')` against `(5, 'b')`, with the second column descending. -/
theorem comparePayload_build_two : build [.integer 5, .text [0x61]] = .ok [3, 1, 15, 5, 0x61] ∧
      comparePayload HashTable.noLocales.toLocaleCollations (.int 5) twoColumns [3, 1, 15, 5, 0x61]
        [.numeric (.integer 5), .text [0x62]] .eq = .ok .gt := by
  have hbuild : build [.integer 5, .text [0x61]] = .ok [3, 1, 15, 5, 0x61] := by decide +kernel
  have hutf8 : ∀ w ∈ [Value.integer 5, .text [0x61]], hasUtf8 w = true := by decide +kernel
  refine ⟨hbuild, ((comparePayload_build hutf8 hbuild (cons_ne_nil _ _)).1 (.int 5) rfl).trans ?_⟩
  exact congrArg Except.ok (by decide +kernel)

end Turso.Record
