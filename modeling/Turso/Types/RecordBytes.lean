import Turso.Types.RecordRoundTrip
import Turso.Types.RecordCompare

/-!
# Reading records by position

The comparers of a record with a key (`core/types.rs`).  They go by positions in the payload, with checks
of their own.  What they read of the columns is what the iterator yields (`At.next`), so on a record that
the iterator reads they compare its values (`compareGeneric_of_yields`).
-/

namespace Turso.Record

open List SerialType ValueIterator
open HashTable (Value)

variable {payload : Bytes} {values : List Value}

/-- The sum of two sizes, which panics where it is no `usize`. -/
def addUsize (a b : ℕ) : Except LimboError ℕ :=
  if a + b < 2 ^ 64 then .ok (a + b) else .error (.assertion "attempt to add with overflow")

/-! ## Comparers -/

section

variable (locales : LocaleCollations)

/-- `skip` fields of `compare_payload_generic`. -/
def skipLoop (payload : Bytes) (headerEnd : ℕ) : ℕ → ℕ → ℕ → Except LimboError (ℕ × ℕ)
  | 0, headerPos, dataPos => .ok (headerPos, dataPos)
  | skip + 1, headerPos, dataPos =>
    if headerPos ≥ headerEnd then .ok (headerPos, dataPos)
    else do
      let header ← sliceFrom payload headerPos
      let (serial, bytesRead) ← readVarint header
      let serialType ← tryFrom serial
      let dataPos ← addUsize dataPos serialType.size
      skipLoop payload headerEnd skip (headerPos + bytesRead) dataPos

/-- The value of a column; a value without bytes does not touch the payload. -/
def columnAt (payload : Bytes) (dataPos : ℕ) : SerialType → Except LimboError (Value × ℕ)
  | .constInt0 => .ok (.integer 0, 0)
  | .constInt1 => .ok (.integer 1, 0)
  | .null => .ok (.null, 0)
  | serialType => do
    let data ← sliceFrom payload dataPos
    readValue data serialType

/-- The loop of `compare_payload_generic`. -/
def compareLoop (payload : Bytes) (headerEnd : ℕ) (tieBreaker : Ordering) :
    List KeyInfo → List ValueRef → ℕ → ℕ → Except LimboError Ordering
  | key :: keys, right :: rights, headerPos, dataPos =>
    if headerPos ≥ headerEnd then .ok tieBreaker
    else do
      let header ← sliceFrom payload headerPos
      let (serial, bytesRead) ← readVarint header
      let serialType ← tryFrom serial
      let (value, size) ← columnAt payload dataPos serialType
      match key.cmpInColumn locales value.asRef right with
      | .eq => compareLoop payload headerEnd tieBreaker keys rights (headerPos + bytesRead) (dataPos + size)
      | other => .ok other
  | _, _, _, _ => .ok tieBreaker

section
variable (info : IndexInfo)

section
variable (payload : Bytes)

section
variable (right : List ValueRef)

/-- `compare_payload_generic`. -/
def compareGeneric (skip : ℕ) (tieBreaker : Ordering) : Except LimboError Ordering :=
  if payload = [] then .ok .lt
  else do
    let (headerSize, headerPos) ← readVarint payload
    let (headerPos, dataPos) ← skipLoop payload headerSize skip headerPos headerSize
    compareLoop locales payload headerSize tieBreaker (info.keyInfo.drop skip) (right.drop skip)
      headerPos dataPos

section
variable (tieBreaker : Ordering)

/-- What `compare_payload_int` and `compare_payload_string` have in common: `first` compares the first
column from its serial type and the data, unless it is of another kind. -/
def compareFirst (first : ℕ → Bytes → Except LimboError (Option Ordering)) :
    Except LimboError Ordering :=
  if payload.length < 2 then compareGeneric locales info payload right 0 tieBreaker
  else do
    let (headerSize, offset) ← readVarint payload
    if payload.length < headerSize then
      .error (.corrupt s!"Record payload too short: claimed header size {headerSize} but payload only {payload.length} bytes")
    else do
      let header ← sliceFrom payload offset
      let (serial, _) ← readVarint header
      let data ← sliceFrom payload headerSize
      match ← first serial data with
      | none => compareGeneric locales info payload right 0 tieBreaker
      | some .eq =>
        if 1 < right.length then compareGeneric locales info payload right 1 tieBreaker
        else .ok tieBreaker
      | some other => .ok other

/-- `compare_payload_int`, with `read_integer`. -/
def compareInt (rhsInt : Int64) : Except LimboError Ordering :=
  compareFirst locales info payload right tieBreaker fun serial data =>
    if 1 ≤ serial ∧ serial ≤ 6 ∨ serial = 8 ∨ serial = 9 then do
      match ← readValueSerialType data serial with
      | (.integer lhsInt, _) =>
        .ok (some (info.firstKey.sortOrder.apply (compare lhsInt.toInt rhsInt.toInt)))
      | _ => .ok none
    else .ok none

/-- Two texts, in the order of the first key: equal ones by their lengths. -/
def compareTexts (lhsText rhsText : Bytes) : Ordering :=
  match info.firstKey.sortOrder.apply
      (info.firstKey.collation.compareStrings locales lhsText rhsText) with
  | .eq => info.firstKey.sortOrder.apply (compare lhsText.length rhsText.length)
  | other => other

/-- `compare_payload_string`. -/
def compareString : Except LimboError Ordering :=
  compareFirst locales info payload right tieBreaker fun serial data =>
    if 13 ≤ serial ∧ serial % 2 = 1 then
      match right.head? with
      | some (.text rhsText) => do
        let serialType ← tryFrom serial
        match ← readValue data serialType with
        | (.text lhsText, _) => .ok (some (compareTexts locales info lhsText rhsText))
        | _ => .ok none
      | some _ => .ok none
      | none => .error (.assertion "called `Option::unwrap()` on a `None` value")
    else .ok none

end

end

end

end

/-- `compare_payload`. -/
def comparePayload (comparer : RecordCompare) (info : IndexInfo) (payload : Bytes) (right : List ValueRef)
    (tieBreaker : Ordering) : Except LimboError Ordering :=
  match comparer with
  | .int value => compareInt locales info payload right tieBreaker value
  | .string => compareString locales info payload right tieBreaker
  | .generic => compareGeneric locales info payload right 0 tieBreaker

end

/-! ## One column -/

/-- What `next` has done where it yields a value. -/
theorem next_eq_ok {iterator it' : ValueIterator} {w : Value}
    (hnx : iterator.next = (some (.ok w), it')) :
    ∃ serial n serialType, iterator.headerSection ≠ [] ∧
      readVarint iterator.headerSection = .ok (serial, n) ∧ tryFrom serial = .ok serialType ∧
      serialType.size ≤ iterator.dataSection.length ∧
      decodeValue (iterator.dataSection.take serialType.size) serialType = .ok w ∧
      it' = ⟨iterator.headerSection.drop n, iterator.dataSection.drop serialType.size⟩ := by
  have hne : iterator.headerSection ≠ [] := by
    intro hnil
    simp [ValueIterator.next, hnil] at hnx
  simp only [ValueIterator.next, if_neg hne] at hnx
  cases hread : readVarint iterator.headerSection with
  | error error => simp [hread] at hnx
  | ok res =>
    obtain ⟨serial, n⟩ := res
    have hn := (readVarint_append hread []).2
    cases htype : tryFrom serial with
    | error error =>
      simp [hread, sliceFrom, hn, readValueSerialType, htype, bind, Except.bind] at hnx
    | ok serialType =>
      by_cases hsize : iterator.dataSection.length < serialType.size
      · simp [hread, sliceFrom, hn, readValueSerialType, htype, readWith, hsize, bind, Except.bind] at hnx
      · cases hdecode : decodeValue (iterator.dataSection.take serialType.size) serialType with
        | error error =>
          simp [hread, sliceFrom, hn, readValueSerialType, htype, readWith, hsize, hdecode, bind,
            Except.bind, Except.map] at hnx
        | ok read =>
          simp [hread, sliceFrom, hn, readValueSerialType, htype, readWith, hsize, hdecode, bind,
            Except.bind, Except.map, Nat.le_of_not_lt hsize] at hnx
          exact ⟨serial, n, serialType, hne, rfl, htype, Nat.le_of_not_lt hsize, hnx.1 ▸ hdecode,
            hnx.2.symm⟩

/-- The positions in a payload where an iterator stands. -/
structure At (payload : Bytes) (headerEnd headerPos dataPos : ℕ) (iterator : ValueIterator) : Prop where
  header : (payload.take headerEnd).drop headerPos = iterator.headerSection
  data : payload.drop dataPos = iterator.dataSection
  header_le : headerPos ≤ headerEnd
  end_le : headerEnd ≤ payload.length
  data_le : dataPos ≤ payload.length

section

variable {headerEnd headerPos dataPos : ℕ} {iterator it' mid : ValueIterator}

theorem At.of_new (hnew : new payload = .ok iterator) :
    ∃ headerSize length, readVarint payload = .ok (headerSize, length) ∧
      At payload headerSize length headerSize iterator := by
  unfold new at hnew
  obtain ⟨⟨headerSize, length⟩, hread, hnew⟩ := bind_eq_ok.mp hnew
  dsimp only at hnew
  split_ifs at hnew with hsmall
  cases hnew
  exact ⟨headerSize, length, hread, rfl, rfl, by omega, by omega, by omega⟩

/-- The comparers read by position what the iterator yields. -/
theorem At.next {w : Value} (hat : At payload headerEnd headerPos dataPos iterator)
    (hnx : iterator.next = (some (.ok w), it')) :
    ∃ serial n serialType, headerPos < headerEnd ∧
      readVarint (payload.drop headerPos) = .ok (serial, n) ∧ tryFrom serial = .ok serialType ∧
      (∀ message, readWith message (payload.drop dataPos) serialType = .ok (w, serialType.size)) ∧
      columnAt payload dataPos serialType = .ok (w, serialType.size) ∧
      At payload headerEnd (headerPos + n) (dataPos + serialType.size) it' := by
  obtain ⟨serial, n, serialType, hne, hread, htype, hsize, hdecode, rfl⟩ := next_eq_ok hnx
  rw [← hat.header] at hne hread
  rw [← hat.data] at hsize hdecode
  have hn := (readVarint_append hread []).2
  have he := hat.end_le
  have hdata := hat.data_le
  rw [length_drop, length_take] at hn
  rw [length_drop] at hsize
  have hlt : headerPos < headerEnd := by
    by_contra hge
    exact hne (drop_eq_nil_of_le (by rw [length_take]; omega))
  have hwhole : payload.drop headerPos =
      (payload.take headerEnd).drop headerPos ++ payload.drop headerEnd := by
    rw [← drop_append_of_le_length (by rw [length_take]; omega), take_append_drop]
  have hw (message : ℕ → SerialType → String) :
      readWith message (payload.drop dataPos) serialType = .ok (w, serialType.size) := by
    rw [readWith, if_neg (by rw [length_drop]; omega), hdecode]
    rfl
  refine ⟨serial, n, serialType, hlt, ?_, htype, hw, ?_, ?_⟩
  · rw [hwhole]
    exact (readVarint_append hread _).1
  · have hslice : sliceFrom payload dataPos = .ok (payload.drop dataPos) := if_pos hdata
    cases serialType with
    | null | constInt0 | constInt1 =>
      cases hdecode
      rfl
    | _ =>
      simp only [columnAt, hslice]
      exact hw _
  · rw [← hat.header, ← hat.data]
    exact ⟨drop_drop.symm, drop_drop.symm, by omega, he, by omega⟩

/-! ## The values of a record -/

theorem skipLoop_of_yields (hat : At payload headerEnd headerPos dataPos iterator)
    (hyields : Yields iterator values mid) (hlen : payload.length < 2 ^ 64) :
    ∃ headerPos' dataPos', At payload headerEnd headerPos' dataPos' mid ∧
      skipLoop payload headerEnd values.length headerPos dataPos = .ok (headerPos', dataPos') := by
  induction hyields generalizing headerPos dataPos with
  | nil => exact ⟨headerPos, dataPos, hat, rfl⟩
  | cons hnext _ ih =>
    obtain ⟨serial, n, serialType, hlt, hread, htype, -, -, hat'⟩ := hat.next hnext
    obtain ⟨headerPos', dataPos', hmid, hskip⟩ := ih hat'
    have hdata := hat'.data_le
    have hslice : sliceFrom payload headerPos = .ok (payload.drop headerPos) :=
      if_pos (hlt.le.trans hat.end_le)
    refine ⟨headerPos', dataPos', hmid, ?_⟩
    simp only [length_cons, skipLoop, if_neg hlt.not_ge, hslice, bind, Except.bind, hread, htype, addUsize,
      if_pos (show dataPos + serialType.size < 2 ^ 64 by omega), hskip]

variable {locales : LocaleCollations}

/-- The loop of the generic comparer compares the values that the iterator yields. -/
theorem compareLoop_of_yields {tieBreaker : Ordering} {keys : List KeyInfo}
    {rights : List ValueRef} (hat : At payload headerEnd headerPos dataPos iterator)
    (hyields : Yields iterator values mid)
    (henough : min keys.length rights.length ≤ values.length ∨ mid.headerSection = []) :
    compareLoop locales payload headerEnd tieBreaker keys rights headerPos dataPos =
      .ok (compareColumns locales tieBreaker keys (values.map Value.asRef) rights) := by
  induction hyields generalizing keys rights headerPos dataPos with
  | nil iterator =>
    cases keys with
    | nil => rfl
    | cons key keys =>
      cases rights with
      | nil => rfl
      | cons right rights =>
        have he : headerPos ≥ headerEnd := by
          have hnil := henough.resolve_left (by simp)
          rw [← hat.header, drop_eq_nil_iff, length_take] at hnil
          have := hat.end_le
          omega
        exact if_pos he
  | cons hnext _ ih =>
    cases keys with
    | nil => rfl
    | cons key keys =>
      cases rights with
      | nil => rfl
      | cons right rights =>
        obtain ⟨serial, n, serialType, hlt, hread, htype, -, hcolumn, hat'⟩ := hat.next hnext
        have hslice : sliceFrom payload headerPos = .ok (payload.drop headerPos) :=
          if_pos (hlt.le.trans hat.end_le)
        have hrest := @ih _ _ keys rights hat' (by simpa using henough)
        simp only [compareLoop, if_neg hlt.not_ge, hslice, bind, Except.bind, hread, htype, hcolumn,
          map_cons, compareColumns]
        cases key.cmpInColumn locales _ right with
        | eq => exact hrest
        | lt | gt => rfl

/-- Past the columns `skipped`, the generic comparer compares the values that the iterator yields. -/
theorem compareGeneric_of_yields {info : IndexInfo} {right : List ValueRef}
    {tieBreaker : Ordering} {skipped : List Value} (hnew : new payload = .ok iterator)
    (hskipped : Yields iterator skipped it') (hyields : Yields it' values mid)
    (hlen : payload.length < 2 ^ 64)
    (henough : min info.keyInfo.length right.length ≤ skipped.length + values.length ∨
      mid.headerSection = []) :
    compareGeneric locales info payload right skipped.length tieBreaker =
      .ok (comparePayloadGeneric locales info ((skipped ++ values).map Value.asRef) right skipped.length
        tieBreaker) := by
  obtain ⟨headerSize, length, hread, hat⟩ := At.of_new hnew
  obtain ⟨headerPos, dataPos, hat', hskip⟩ := skipLoop_of_yields hat hskipped hlen
  have hne : payload ≠ [] := by
    rintro rfl
    cases hread
  have hvalues : ((skipped ++ values).map Value.asRef).drop skipped.length = values.map Value.asRef := by
    rw [map_append, drop_left' (length_map _)]
  simp only [compareGeneric, if_neg hne, bind, Except.bind, hread, hskip]
  rw [compareLoop_of_yields hat' hyields, comparePayloadGeneric, hvalues]
  refine henough.imp (fun hle => ?_) id
  simp only [length_drop]
  omega

end

end Turso.Record
