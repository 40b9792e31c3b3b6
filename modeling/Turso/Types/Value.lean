import Turso.Foundation.Binary64
import Mathlib.Data.List.DropRight

/-!
# Values and their order

`ValueRef` and its order (`core/types.rs`), with the order of `Numeric` (`core/numeric/mod.rs`)
and the collations of text (`core/translate/collate.rs`).

An integer is compared with a float through the integer part of the float, and only where that
is equal as a float.  `Numeric.cmp_eq` says that the outcome is the order of the numbers.  So
every order here is one by some keys in turn, and with that a total preorder (`TransCmp`).
-/

namespace Turso

open List Binary64
open Std (TransCmp OrientedCmp)

/-! ## Numbers -/

/-- `Numeric`. -/
inductive Numeric where
  | integer (value : Int64)
  | float (value : Double)
  deriving DecidableEq

theorem natAbs_toInt_lt (value : Int64) : value.toInt.natAbs < 2 ^ 64 := by
  have hlow := value.le_toInt
  have hhigh := value.toInt_lt
  omega

theorem representable_toInt (value : Int64) : Representable (nearest value.toInt) :=
  representable_nearest (natAbs_toInt_lt value)

/-- `sqlite_int_float_cmp`. -/
def sqliteIntFloatCmp (int : ℤ) : Double → Ordering
  | .negInf => .gt
  | .posInf => .lt
  | .finite value _ =>
    if value < -9223372036854775808 then .gt
    else if 9223372036854775808 ≤ value then .lt
    else
      match compare int (truncate value) with
      | .eq => compare ((nearest int : ℤ) : ℚ) value
      | other => other

/-- `Numeric::cmp`. -/
def Numeric.cmp : Numeric → Numeric → Ordering
  | integer first, integer second => compare first.toInt second.toInt
  | float first, float second => compare first.toExtended second.toExtended
  | integer int, float value => sqliteIntFloatCmp int.toInt value
  | float value, integer int => (sqliteIntFloatCmp int.toInt value).swap

/-- The number itself. -/
def Numeric.toExtended : Numeric → WithBot (WithTop ℚ)
  | integer value => (((value.toInt : ℚ) : WithTop ℚ) : WithBot (WithTop ℚ))
  | float value => value.toExtended

theorem coe_strictMono : StrictMono fun v : ℚ => ((v : WithTop ℚ) : WithBot (WithTop ℚ)) :=
  WithBot.coe_strictMono.comp WithTop.coe_strictMono

theorem compare_of_strictMono {α β : Type*} [LinearOrder α] [LinearOrder β] {f : α → β}
    (hf : StrictMono f) (first second : α) : compare (f first) (f second) = compare first second := by
  rw [← cmp_eq_compare, ← cmp_eq_compare, hf.cmp_map_eq]

/-- The comparison through the integer part of the float is that of the numbers. -/
theorem sqliteIntFloatCmp_eq (int : Int64) (float : Double) : sqliteIntFloatCmp int.toInt float =
      compare (Numeric.integer int).toExtended float.toExtended := by
  cases float with
  | negInf => exact (compare_gt_iff_gt.2 (WithBot.bot_lt_coe _)).symm
  | posInf =>
    refine (compare_lt_iff_lt.2 ?_).symm
    exact WithBot.coe_lt_coe.2 (WithTop.coe_lt_top _)
  | finite v hv =>
    have hlow : (-9223372036854775808 : ℚ) ≤ int.toInt := by exact_mod_cast int.le_toInt
    have hhigh : (int.toInt : ℚ) < 9223372036854775808 := by exact_mod_cast int.toInt_lt
    rw [Numeric.toExtended, Double.toExtended, compare_of_strictMono coe_strictMono,
      sqliteIntFloatCmp]
    split_ifs with hless hgreater
    · exact (compare_gt_iff_gt.2 (hless.trans_le hlow)).symm
    · exact (compare_lt_iff_lt.2 (hhigh.trans_le hgreater)).symm
    · rcases lt_trichotomy int.toInt (truncate v) with h | h | h
      · rw [compare_lt_iff_lt.2 h, compare_lt_iff_lt.2 (lt_of_lt_truncate h)]
      · -- the integer part of a float is a float again
        rw [compare_eq_iff_eq.2 h, h, nearest_truncate hv]
      · rw [compare_gt_iff_gt.2 h, compare_gt_iff_gt.2 (lt_of_truncate_lt h)]

theorem Numeric.cmp_eq (first second : Numeric) :
    first.cmp second = compare first.toExtended second.toExtended := by
  cases first with
  | integer first =>
    cases second with
    | integer second =>
      rw [cmp, toExtended, toExtended, compare_of_strictMono coe_strictMono,
        compare_of_strictMono Int.cast_strictMono]
    | float second => exact sqliteIntFloatCmp_eq first second
  | float first =>
    cases second with
    | integer second =>
      rw [cmp, sqliteIntFloatCmp_eq]
      exact OrientedCmp.eq_swap.symm
    | float second => rfl

/-! ## Collations -/

/-- The bytes of a text or a blob. -/
abbrev Bytes := List UInt8

/-- `LocaleCollationRegistry`: the comparison of a locale is that of a collation library, which
promises a total preorder. -/
structure LocaleCollations where
  compare : ℕ → Bytes → Bytes → Ordering
  transCmp : ∀ id, TransCmp (compare id)

/-- The locales of an empty registry: texts compare as bytes. -/
def emptyLocales : LocaleCollations where
  compare _ := compare
  transCmp _ := inferInstance

/-- `CollationSeq`. -/
inductive CollationSeq where
  | unset
  | binary
  | noCase
  | rtrim
  | locale (id : ℕ)
  | custom (id : ℕ)
  deriving DecidableEq, Repr

/-- `to_ascii_lowercase`. -/
def toAsciiLowercase (byte : UInt8) : UInt8 :=
  if 65 ≤ byte ∧ byte ≤ 90 then byte + 32 else byte

/-- The loop of `nocase_cmp`; `sameSoFar` is what it returns where no byte differs. -/
def nocaseLoop (sameSoFar : Ordering) : Bytes → Bytes → Ordering
  | left :: lhs, right :: rhs =>
    if toAsciiLowercase left ≠ toAsciiLowercase right then
      compare (toAsciiLowercase left) (toAsciiLowercase right)
    else if toAsciiLowercase left = 0 then sameSoFar
    else nocaseLoop sameSoFar lhs rhs
  | _, _ => sameSoFar

/-- `nocase_cmp`. -/
def nocaseCmp (lhs rhs : Bytes) : Ordering :=
  nocaseLoop (compare lhs.length rhs.length) lhs rhs

/-- `rtrim_cmp`. -/
def rtrimCmp (lhs rhs : Bytes) : Ordering :=
  compare (lhs.rdropWhile (· = 32)) (rhs.rdropWhile (· = 32))

variable (locales : LocaleCollations)

/-- `compare_strings`. -/
def CollationSeq.compareStrings : CollationSeq → Bytes → Bytes → Ordering
  | unset | binary | custom _ => compare
  | noCase => nocaseCmp
  | rtrim => rtrimCmp
  | locale id => locales.compare id

/-- The bytes that `nocase_cmp` looks at: up to the first that is zero. -/
def throughNul : Bytes → Bytes
  | [] => []
  | byte :: bytes => if byte = 0 then [0] else byte :: throughNul bytes

theorem throughNul_cons (byte : UInt8) (bytes : Bytes) :
    throughNul (byte :: bytes) = byte :: if byte = 0 then [] else throughNul bytes := by
  rw [throughNul]
  split_ifs with hzero
  · rw [hzero]
  · rfl

/-- Where one text ends, the longer one is the greater. -/
theorem nocaseLoop_eq (consumed : ℕ) (lhs rhs : Bytes) :
    nocaseLoop (compare (consumed + lhs.length) (consumed + rhs.length)) lhs rhs =
      (compare (throughNul (lhs.map toAsciiLowercase)) (throughNul (rhs.map toAsciiLowercase))).then
        (compare (consumed + lhs.length) (consumed + rhs.length)) := by
  induction lhs generalizing consumed rhs with
  | nil =>
    cases rhs with
    | nil => simp [nocaseLoop]
    | cons right rhs =>
      rw [map_cons, throughNul_cons, map_nil, throughNul, List.compare_nil_cons, nocaseLoop]
      · exact compare_lt_iff_lt.2 (by simp)
      · simp
  | cons left lhs ih =>
    cases rhs with
    | nil =>
      rw [map_cons, throughNul_cons, map_nil, throughNul, List.compare_cons_nil, nocaseLoop]
      · exact compare_gt_iff_gt.2 (by simp)
      · simp
    | cons right rhs =>
      rw [nocaseLoop, map_cons, map_cons, throughNul_cons, throughNul_cons, List.compare_cons_cons]
      by_cases hsame : toAsciiLowercase left = toAsciiLowercase right
      · rw [if_neg (not_not.2 hsame), ← hsame]
        by_cases hzero : toAsciiLowercase left = 0
        · simp [hzero]
        · have hnx := ih (consumed + 1) rhs
          rw [Nat.add_right_comm, Nat.add_right_comm consumed 1] at hnx
          simp only [if_neg hzero, Std.ReflOrd.compare_self]
          exact hnx
      · rw [if_pos hsame]
        cases hcompare : compare (toAsciiLowercase left) (toAsciiLowercase right) with
        | lt => rfl
        | gt => rfl
        | eq => exact absurd (Std.LawfulEqOrd.eq_of_compare hcompare) hsame

theorem nocaseCmp_eq : nocaseCmp =
    compareLex (compareOn fun text => throughNul (text.map toAsciiLowercase))
      (compareOn length) := by
  funext lhs rhs
  have hloop := nocaseLoop_eq 0 lhs rhs
  rw [zero_add, zero_add] at hloop
  exact hloop

instance CollationSeq.transCmp (locales : LocaleCollations) (collation : CollationSeq) :
    TransCmp (collation.compareStrings locales) := by
  cases collation with
  | unset | binary | custom id => exact inferInstanceAs (TransCmp (compare : Bytes → Bytes → Ordering))
  | noCase =>
    rw [compareStrings, nocaseCmp_eq]
    infer_instance
  | rtrim => exact inferInstanceAs (TransCmp (compareOn fun text : Bytes => text.rdropWhile (· = 32)))
  | locale id => exact locales.transCmp id

/-! ## Values -/

/-- `ValueRef`. -/
inductive ValueRef where
  | null
  | numeric (value : Numeric)
  | text (value : Bytes)
  | blob (value : Bytes)
  deriving DecidableEq

namespace ValueRef

/-- `ValueRef::cmp`. -/
def cmp : ValueRef → ValueRef → Ordering
  | null, null => .eq
  | null, _ => .lt
  | _, null => .gt
  | numeric first, numeric second => first.cmp second
  | numeric _, _ => .lt
  | _, numeric _ => .gt
  | text first, text second => compare first second
  | text _, blob _ => .lt
  | blob _, text _ => .gt
  | blob first, blob second => compare first second

variable (collation : CollationSeq)

/-- `compare_immutable_single`. -/
def compareImmutableSingle : ValueRef → ValueRef → Ordering
  | text first, text second => collation.compareStrings locales first second
  | first, second => first.cmp second

theorem compareImmutableSingle_null_left {v : ValueRef} (h : v ≠ .null) :
    compareImmutableSingle locales collation .null v = .lt := by
  cases v with
  | null => exact absurd rfl h
  | _ => rfl

/-- The place of a type in the order of types. -/
def rank : ValueRef → ℕ
  | null => 0
  | numeric _ => 1
  | text _ => 2
  | blob _ => 3

/-- The number, text or blob of a value; of each type one for the values of other types. -/
def contents : ValueRef → WithBot (WithTop ℚ) × Bytes × Bytes
  | null => (⊥, [], [])
  | numeric value => (value.toExtended, [], [])
  | text value => (⊥, value, [])
  | blob value => (⊥, [], value)

/-- Values are ordered by their types, then by their contents. -/
theorem compareImmutableSingle_eq :
    compareImmutableSingle locales collation =
      compareLex (compareOn rank) (compareLex (compareOn fun v => v.contents.1)
        (compareLex (fun first b =>
            collation.compareStrings locales first.contents.2.1 b.contents.2.1)
          (compareOn fun v => v.contents.2.2))) := by
  have hrefl : collation.compareStrings locales [] [] = .eq := Std.ReflCmp.compare_self
  funext first b
  -- values of two types differ in their ranks
  cases first <;> cases b <;>
    first
    | rfl
    | simp [compareImmutableSingle, cmp, compareLex, compareOn, rank, contents, hrefl,
        Numeric.cmp_eq]

instance (locales : LocaleCollations) (collation : CollationSeq) :
    TransCmp (compareImmutableSingle locales collation) := by
  have htext : TransCmp fun first second : ValueRef =>
      collation.compareStrings locales first.contents.2.1 second.contents.2.1 :=
    { eq_swap := OrientedCmp.eq_swap
      isLE_trans := TransCmp.isLE_trans }
  rw [compareImmutableSingle_eq]
  infer_instance

/-- The order of values that indexes and sorting use is a total preorder, numbers are in the order of
the numbers that they are, and equal values compare alike with any third. -/
theorem value_order_total_preorder (locales : LocaleCollations) (collation : CollationSeq) :
    let cmp := compareImmutableSingle locales collation
    (∀ value, cmp value value = .eq) ∧
    (∀ first second, (cmp first second).isLE ∨ (cmp second first).isLE) ∧
    (∀ first second third,
      (cmp first second).isLE → (cmp second third).isLE → (cmp first third).isLE) ∧
    (∀ first second : Numeric,
      cmp (.numeric first) (.numeric second) = compare first.toExtended second.toExtended) ∧
    (∀ first second, cmp first second = .eq →
      ∀ third, cmp first third = cmp second third ∧ cmp third first = cmp third second) := by
  intro cmp
  refine ⟨fun _ => Std.ReflCmp.compare_self, fun first second => ?_,
    fun _ _ _ => TransCmp.isLE_trans, Numeric.cmp_eq, fun first second heq third => ?_⟩
  · have hswap : cmp second first = (cmp first second).swap := OrientedCmp.eq_swap
    rw [hswap]
    cases cmp first second <;> simp
  · exact ⟨TransCmp.congr_left heq, TransCmp.congr_right heq⟩

end ValueRef

end Turso
