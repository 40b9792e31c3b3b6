import Mathlib.LinearAlgebra.Finsupp.LinearCombination
import Turso.Storage.Error

/-!
# The state of an incremental SUM

A materialized view keeps a SUM, TOTAL or AVG as an integer total in two words and a total of floats,
to which a row is added with a weight (`ivm_sum_apply`, `core/vdbe/execute.rs`).  A negative weight
retracts.  The two words hold the exact total of the integers (`Holds.run`), and only one pair of words
holds it, so that the state of a sum over integers is a function of the z-set of its steps
(`ivmSum_exact`).
-/

namespace Turso.IvmSum

open Int64 (ofInt ofInt_toInt toInt toInt_inj)

inductive SumError where
  | integerOverflow
  | retractedTooMany
  deriving DecidableEq

/-- `checked_add`. -/
def checkedAdd (left right : Int64) : Except SumError Int64 :=
  if (left + right).toInt = left.toInt + right.toInt then .ok (left + right)
  else .error .integerOverflow

/-! ## Floats -/

/-- `kbn_correction`. -/
def kbnCorrection (s r t : Float) : Float :=
  if r.abs < s.abs then (s - t) + r else (r - t) + s

/-- `apply_kbn_step` on the sum, NULL after a NaN, and its error term. -/
def applyKbnStep (r : Float) : Option Float × Float → Option Float × Float
  | (none, rErr) => (none, rErr)
  | (some s, rErr) =>
    let t := s + r
    if t.isNaN then (none, rErr)
    else (some t, if t.isFinite then rErr + kbnCorrection s r t else rErr)

/-- `apply_kbn_step_int`. -/
def applyKbnStepInt (int : Int64) (acc : Option Float × Float) : Option Float × Float :=
  if 2 ^ 52 ≤ int.toInt.natAbs then
    let small := int % 16384
    applyKbnStep small.toFloat (applyKbnStep (int - small).toFloat acc)
  else applyKbnStep int.toFloat acc

/-- `Value::from_f64`. -/
def fromF64 (float : Float) : Option Float :=
  if float.isNaN then none else some float

/-! ## The state -/

/-- `NumericArg`. -/
inductive NumericArg where
  | null
  | integer (value : Int64)
  | float (value : Float)

/-- The registers of `IvmSumData`; a float register may hold NULL. -/
structure State where
  wrapped : Int64
  wrapCount : Int64
  floatSum : Option Float
  floatErr : Option Float
  nonIntCount : Int64
  nonNullCount : Int64

/-- `emit_payload_zero_init`. -/
def State.zero : State := ⟨0, 0, some 0, some 0, 0, 0⟩

/-- `add_to_count`. -/
def addToCount (count weight : Int64) : Except SumError Int64 := do
  let count ← checkedAdd count weight
  if count < 0 then .error .retractedTooMany else .ok count

/-- `ivm_sum_add_weighted_int`. -/
def addWeightedInt (wrapped wrapCount value weight : Int64) : Except SumError (Int64 × Int64) := do
  let product := weight.toInt * value.toInt
  let low := ofInt product
  let high := ofInt ((product - low.toInt) / 2 ^ 64)
  let newWrapped := wrapped + low
  let carry : Int64 :=
    if newWrapped.toInt = wrapped.toInt + low.toInt then 0 else if 0 ≤ low then 1 else -1
  let count ← checkedAdd wrapCount high
  let newWrapCount ← checkedAdd count carry
  .ok (newWrapped, newWrapCount)

/-- `ivm_sum_apply`, for an argument that was classified. -/
def ivmSumApply (state : State) (weight : Int64) : NumericArg → Except SumError State
  | .null => .ok state
  | .integer value => do
    let (wrapped, wrapCount) ← addWeightedInt state.wrapped state.wrapCount value weight
    let nonNullCount ← addToCount state.nonNullCount weight
    .ok { state with wrapped, wrapCount, nonNullCount }
  | .float value => do
    let (floatSum, rErr) :=
      applyKbnStep (value * weight.toFloat) (state.floatSum, state.floatErr.getD 0)
    let nonNullCount ← addToCount state.nonNullCount weight
    let nonIntCount ← addToCount state.nonIntCount weight
    .ok { state with floatSum, floatErr := fromF64 rErr, nonNullCount, nonIntCount }

/-- `IvmSumKind`. -/
inductive IvmSumKind where
  | sum
  | total
  | avg
  deriving DecidableEq

inductive SumValue where
  | null
  | integer (value : Int64)
  | real (value : Float)

/-- `finalize_ivm_sum`. -/
def finalizeIvmSum (kind : IvmSumKind) (state : State) : Except SumError SumValue :=
  if state.nonNullCount = 0 then .ok (if kind = .total then .real 0 else .null)
  else if kind = .sum ∧ state.nonIntCount = 0 then
    if state.wrapCount ≠ 0 then .error .integerOverflow else .ok (.integer state.wrapped)
  else
    let acc := (state.floatSum, state.floatErr.getD 0)
    let (sum, rErr) :=
      if state.wrapCount = 0 then
        if state.wrapped ≠ 0 then applyKbnStepInt state.wrapped acc else acc
      else applyKbnStep (state.wrapCount.toFloat * 18446744073709551616 + state.wrapped.toFloat) acc
    .ok (((sum.map (· + rErr)).bind fun total =>
      fromF64 (if kind = .avg then total / state.nonNullCount.toFloat else total)).elim .null .real)

/-! ## The exact total -/

theorem toInt_bounds (word : Int64) : -2 ^ 63 ≤ word.toInt ∧ word.toInt < 2 ^ 63 :=
  ⟨word.le_toInt, word.toInt_lt⟩

theorem checkedAdd_eq_ok {left right sum : Int64} (h : checkedAdd left right = .ok sum) :
    sum.toInt = left.toInt + right.toInt := by
  unfold checkedAdd at h
  split_ifs at h with hfits
  cases h
  exact hfits

/-- The high word of a number whose low word is read as signed. -/
theorem exists_high (n : ℤ) : ∃ high, n = (ofInt n).toInt + 2 ^ 64 * high := by
  rw [Int64.toInt_ofInt]
  exact ⟨_, (Int.bmod_add_bdiv n Int64.size).symm⟩

/-- The low words overflow by at most one, and only in the direction of the word that is added. -/
theorem toInt_add_carry (wrapped low : Int64) :
    (wrapped + low).toInt + 2 ^ 64 * (if (wrapped + low).toInt = wrapped.toInt + low.toInt then 0
      else if 0 ≤ low then 1 else -1 : Int64).toInt = wrapped.toInt + low.toInt := by
  have hsum := toInt_bounds (wrapped + low)
  have hwrapped := toInt_bounds wrapped
  have hlow := toInt_bounds low
  obtain ⟨high, hadd⟩ := exists_high (wrapped.toInt + low.toInt)
  rw [Int64.ofInt_add, ofInt_toInt, ofInt_toInt] at hadd
  split_ifs with hfits hsign
  · simpa using hfits
  · have : 0 ≤ low.toInt := Int64.le_iff_toInt_le.1 hsign
    rw [show (1 : Int64).toInt = 1 from rfl]
    omega
  · have : ¬ 0 ≤ low.toInt := fun h => hsign (Int64.le_iff_toInt_le.2 h)
    rw [show (-1 : Int64).toInt = -1 from rfl]
    omega

theorem addWeightedInt_eq_ok {wrapped wrapCount value weight : Int64} {words : Int64 × Int64}
    (h : addWeightedInt wrapped wrapCount value weight = .ok words) :
    words.1.toInt + 2 ^ 64 * words.2.toInt =
      wrapped.toInt + 2 ^ 64 * wrapCount.toInt + weight.toInt * value.toInt := by
  have hproduct : |weight.toInt * value.toInt| ≤ 2 ^ 63 * 2 ^ 63 := by
    have hweight := toInt_bounds weight
    have hvalue := toInt_bounds value
    rw [abs_mul]
    exact mul_le_mul (abs_le.2 (by omega)) (abs_le.2 (by omega)) (abs_nonneg _) (by norm_num)
  simp only [addWeightedInt] at h
  generalize weight.toInt * value.toInt = product at *
  obtain ⟨high, hhigh⟩ := exists_high product
  have hlow := toInt_bounds (ofInt product)
  have hcarry := toInt_add_carry wrapped (ofInt product)
  rw [abs_le] at hproduct
  rw [show (product - (ofInt product).toInt) / 2 ^ 64 = high by omega] at h
  have hfits : (ofInt high).toInt = high :=
    Int64.toInt_ofInt_of_le (by omega) (by omega)
  obtain ⟨count, hcount, h⟩ := bind_eq_ok.1 h
  obtain ⟨count', hcount', h⟩ := bind_eq_ok.1 h
  cases h
  have hcount := checkedAdd_eq_ok hcount
  have hcount' := checkedAdd_eq_ok hcount'
  dsimp only
  omega

theorem addToCount_eq_ok {count weight sum : Int64} (h : addToCount count weight = .ok sum) :
    sum.toInt = count.toInt + weight.toInt := by
  obtain ⟨next, hnext, h⟩ := bind_eq_ok.1 h
  split_ifs at h
  cases h
  exact checkedAdd_eq_ok hnext

/-! ## Runs over integers -/

/-- The number of a row, zero for NULL. -/
def intValue (row : Option Int64) : ℤ := row.elim 0 toInt

/-- Whether a row counts. -/
def present (row : Option Int64) : ℤ := row.elim 0 fun _ => 1

variable (steps : List (Option Int64 × Int64))

/-- The exact sum of weight times value. -/
def exactTotal : ℤ := (steps.map fun step => step.2.toInt * intValue step.1).sum

/-- How many of the rows that are not NULL are left. -/
def liveCount : ℤ := (steps.map fun step => step.2.toInt * present step.1).sum

/-- The steps of a sum over integers and NULLs, each a row and its weight. -/
def run (start : State) : Except SumError State :=
  steps.foldlM (fun state step => ivmSumApply state step.2 (step.1.elim .null .integer)) start

/-- The state holds the total and the count, and has seen no float. -/
structure Holds (state : State) (total count : ℤ) : Prop where
  total : state.wrapped.toInt + 2 ^ 64 * state.wrapCount.toInt = total
  count : state.nonNullCount.toInt = count
  noFloat : state = ⟨state.wrapped, state.wrapCount, some 0, some 0, 0, state.nonNullCount⟩

variable {steps} {state next : State} {total count : ℤ}

/-- Two pairs of words that hold one total are the same. -/
theorem Holds.unique (hstate : Holds state total count) (hnext : Holds next total count) :
    next = state := by
  have hwrapped := toInt_bounds state.wrapped
  have hwrapped' := toInt_bounds next.wrapped
  have htotal := hstate.total.trans hnext.total.symm
  rw [hstate.noFloat, hnext.noFloat, toInt_inj.1 (hstate.count.trans hnext.count.symm),
    toInt_inj.1 (show state.wrapped.toInt = next.wrapped.toInt by omega),
    toInt_inj.1 (show state.wrapCount.toInt = next.wrapCount.toInt by omega)]

theorem Holds.apply (hstate : Holds state total count) {row : Option Int64} {weight : Int64}
    (hstep : ivmSumApply state weight (row.elim .null .integer) = .ok next) :
    Holds next (total + weight.toInt * intValue row) (count + weight.toInt * present row) := by
  cases row with
  | none =>
    cases hstep
    simpa [intValue, present] using hstate
  | some value =>
    obtain ⟨words, hwords, hstep⟩ := bind_eq_ok.1 hstep
    obtain ⟨sum, hsum, hstep⟩ := bind_eq_ok.1 hstep
    cases hstep
    refine ⟨?_, ?_, ?_⟩
    · rw [← hstate.total]
      exact addWeightedInt_eq_ok hwords
    · rw [← hstate.count]
      simpa [present] using addToCount_eq_ok hsum
    · conv_lhs => rw [hstate.noFloat]

theorem Holds.run (hstate : Holds state total count) (hrun : run steps state = .ok next) :
    Holds next (total + exactTotal steps) (count + liveCount steps) := by
  induction steps generalizing state total count with
  | nil =>
    cases hrun
    simpa [exactTotal, liveCount] using hstate
  | cons step steps ih =>
    obtain ⟨stepped, hstep, hrun⟩ := bind_eq_ok.1 hrun
    simpa [exactTotal, liveCount, add_assoc] using ih (hstate.apply hstep) hrun

theorem Holds.zero : Holds .zero 0 0 := ⟨rfl, rfl, rfl⟩

/-- The total decides what SUM returns. -/
theorem Holds.finalize (hstate : Holds state total count) :
    finalizeIvmSum .sum state = if count = 0 then .ok .null
      else if -2 ^ 63 ≤ total ∧ total < 2 ^ 63 then .ok (.integer (.ofInt total))
      else .error .integerOverflow := by
  have hwrapped := toInt_bounds state.wrapped
  have htotal := hstate.total
  have hnone : state.nonNullCount = 0 ↔ count = 0 := by
    rw [← hstate.count, ← toInt_inj]
    rfl
  have hwrap : state.wrapCount = 0 ↔ -2 ^ 63 ≤ total ∧ total < 2 ^ 63 := by
    rw [← toInt_inj]
    change state.wrapCount.toInt = 0 ↔ _
    omega
  have hint : state.nonIntCount = 0 := congrArg State.nonIntCount hstate.noFloat
  simp only [finalizeIvmSum, hnone, hint, ne_eq, hwrap, reduceCtorEq, and_self, if_true, if_false,
    ite_not]
  split_ifs with hcount hfits
  · rfl
  · have hzero : state.wrapCount.toInt = 0 := congrArg toInt (hwrap.2 hfits)
    rw [← htotal, hzero, mul_zero, add_zero, ofInt_toInt]
  · rfl

/-! ## Z-sets -/

noncomputable section

/-- The z-set of a list of steps: the weight that each row has at the end. -/
def zset (steps : List (Option Int64 × Int64)) : Option Int64 →₀ ℤ :=
  (steps.map fun step => Finsupp.single step.1 step.2.toInt).sum

/-- The z-set of a multiset of rows. -/
def rowsZset (rows : Multiset (Option Int64)) : Option Int64 →₀ ℤ :=
  (rows.map fun row => Finsupp.single row 1).sum

variable (f : Option Int64 → ℤ)

theorem linearCombination_zset (steps : List (Option Int64 × Int64)) :
    Finsupp.linearCombination ℤ f (zset steps) =
      (steps.map fun step => step.2.toInt * f step.1).sum := by
  simp [zset, map_list_sum, Function.comp_def]

theorem linearCombination_rowsZset (rows : Multiset (Option Int64)) :
    Finsupp.linearCombination ℤ f (rowsZset rows) = (rows.map f).sum := by
  simp [rowsZset, map_multiset_sum]

end

theorem sum_present (rows : Multiset (Option Int64)) :
    (rows.map present).sum = rows.countP fun row => row ≠ none := by
  induction rows using Multiset.induction_on with
  | empty => rfl
  | cons row rows ih => cases row <;> simp [present, ih, add_comm]

/-- Of a run over integers and NULLs without an error: the words hold the exact total; every other run
with the same z-set ends in the same state; a row that is added and retracted leaves no trace; and SUM
is NULL if no row is left that is not NULL, the exact total if it fits, and else an error.  Where the
z-set is that of a multiset of rows, total and count are those of the multiset. -/
theorem ivmSum_exact (hrun : run steps .zero = .ok state) :
    state.wrapped.toInt + state.wrapCount.toInt * 2 ^ 64 = exactTotal steps ∧
      (∀ steps' state', zset steps' = zset steps → run steps' .zero = .ok state' →
        state' = state) ∧
      (∀ row weight opposite restored, opposite.toInt = -weight.toInt →
        run (steps ++ [(row, weight), (row, opposite)]) .zero = .ok restored → restored = state) ∧
      (finalizeIvmSum .sum state = if liveCount steps = 0 then .ok .null
        else if -2 ^ 63 ≤ exactTotal steps ∧ exactTotal steps < 2 ^ 63 then
          .ok (.integer (.ofInt (exactTotal steps)))
        else .error .integerOverflow) ∧
      ∀ rows, zset steps = rowsZset rows → exactTotal steps = (rows.map intValue).sum ∧
        liveCount steps = rows.countP fun row => row ≠ none := by
  have hholds : ∀ {steps state}, run steps .zero = .ok state →
      Holds state (exactTotal steps) (liveCount steps) := by
    intro steps state hrun
    simpa only [zero_add] using Holds.zero.run hrun
  have hunique : ∀ steps' state', zset steps' = zset steps → run steps' .zero = .ok state' →
      state' = state := by
    intro steps' state' hzset hrun'
    have hstate := hholds hrun
    have hstate' := hholds hrun'
    simp only [exactTotal, liveCount, ← linearCombination_zset, hzset] at hstate hstate'
    exact hstate.unique hstate'
  refine ⟨?_, hunique, fun row weight opposite restored hopposite => hunique _ restored ?_,
    (hholds hrun).finalize, fun rows hrows => ?_⟩
  · rw [mul_comm]
    exact (hholds hrun).total
  · simp [zset, hopposite]
  · rw [exactTotal, liveCount, ← linearCombination_zset, ← linearCombination_zset, hrows,
      linearCombination_rowsZset, linearCombination_rowsZset, sum_present]
    exact ⟨rfl, rfl⟩

theorem ivmSum_exact_five : ∃ state, run [(some 5, 2), (none, 1), (some 5, -1)] .zero = .ok state ∧
    finalizeIvmSum .sum state = .ok (.integer 5) := by
  have hrun : ∃ state, run [(some 5, 2), (none, 1), (some 5, -1)] .zero = .ok state := ⟨_, rfl⟩
  obtain ⟨state, hrun⟩ := hrun
  exact ⟨state, hrun, (ivmSum_exact hrun).2.2.2.1⟩

end Turso.IvmSum
