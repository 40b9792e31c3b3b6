import Turso.Foundation.Binary64Bits
import Turso.Foundation.LittleEndian
import Turso.Types.RecordCompare

/-!
# Normalized sort keys

The sorter (`core/vdbe/sorter.rs`) compares records by a number of 64 bits made from the first column
of the key, and by the whole keys only where these numbers are equal.  `normalizedFirstKey` is that
number; a smaller one is that of a smaller column (`cmpInColumn_of_norm_lt`).

Three bits hold the class of the value (NULL, number, text, blob), the others begin its contents: for
a number the bits of the nearest double without the last three, for a text or a blob the first seven
bytes and the length.  For a descending column all bits are complemented.
-/

namespace Turso.Sorter

open List Binary64 LittleEndian ValueRef
open Std (OrientedCmp)

variable {first second : ValueRef}

/-! ## Text and blobs -/

/-- `NORM_CLASS_SHIFT`. -/
def normClassShift : ℕ := 61

variable (cls : ℕ)

/-- `normalized_prefix`: the first seven bytes and a length of at most eight. -/
def normalizedPrefix (bytes : Bytes) : ℕ :=
  let padded := bytes.take 7 ++ replicate (8 - min bytes.length 7) 0
  cls * 2 ^ normClassShift + decode padded.reverse / 2 ^ 8 * 2 ^ 5 + min bytes.length 8

/-- The first `count` bytes as a number, as if zeros followed. -/
def leading : ℕ → Bytes → ℕ
  | 0, _ => 0
  | _ + 1, [] => 0
  | count + 1, byte :: bytes => byte.toNat * 256 ^ count + leading count bytes

variable (count : ℕ)

theorem leading_lt (bytes : Bytes) : leading count bytes < 256 ^ count := by
  induction count generalizing bytes with
  | zero => simp [leading]
  | succ count ih =>
    cases bytes with
    | nil => simp [leading]
    | cons byte bytes =>
      have hbyte : byte.toNat + 1 ≤ 256 := byte.toNat_lt
      calc leading (count + 1) (byte :: bytes)
          < byte.toNat * 256 ^ count + 256 ^ count := Nat.add_lt_add_left (ih bytes) _
        _ = (byte.toNat + 1) * 256 ^ count := by ring
        _ ≤ 256 * 256 ^ count := Nat.mul_le_mul_right _ hbyte
        _ = 256 ^ (count + 1) := by ring

theorem decode_replicate (n : ℕ) : decode (replicate n 0) = 0 := by
  induction n with
  | zero => rfl
  | succ n ih => simp [replicate_succ, decode, ih]

theorem decode_padded (bytes : Bytes) :
    decode (bytes.take count ++ replicate (count + 1 - min bytes.length count) 0).reverse =
      leading count bytes * 256 := by
  induction count generalizing bytes with
  | zero => rw [take_zero, nil_append, reverse_replicate, decode_replicate, leading, zero_mul]
  | succ count ih =>
    cases bytes with
    | nil => rw [take_nil, nil_append, reverse_replicate, decode_replicate, leading, zero_mul]
    | cons byte bytes =>
      have hcount : count + 1 + 1 - min (byte :: bytes).length (count + 1) =
          count + 1 - min bytes.length count := by
        rw [length_cons]
        omega
      have hlen : (bytes.take count ++
          replicate (count + 1 - min bytes.length count) 0).reverse.length = count + 1 := by
        rw [length_reverse, length_append, length_take, length_replicate]
        omega
      rw [hcount, take_succ_cons, cons_append, reverse_cons, decode_append, hlen, ih, leading, decode,
        decode]
      ring

theorem normalizedPrefix_eq (bytes : Bytes) :
    normalizedPrefix cls bytes = cls * 2 ^ 61 + leading 7 bytes * 2 ^ 5 + min bytes.length 8 := by
  rw [normalizedPrefix, decode_padded 7, normClassShift]
  norm_num

/-- Bytes that are not greater do not have greater first bytes, and where these are the same they are
not longer, as far as that is looked at. -/
theorem leading_mono {a b : Bytes} (hle : compare a b ≠ .gt) :
    leading count a < leading count b ∨ leading count a = leading count b ∧
        min a.length (count + 1) ≤ min b.length (count + 1) := by
  induction count generalizing a b with
  | zero =>
    refine .inr ⟨rfl, ?_⟩
    cases a with
    | nil => simp
    | cons byte bytes =>
      cases b with
      | nil => exact absurd (List.compare_cons_nil) hle
      | cons byte' bytes' => simp
  | succ count ih =>
    cases a with
    | nil =>
      refine (Nat.eq_zero_or_pos (leading (count + 1) b)).elim (fun hzero => ?_) .inl
      exact .inr ⟨hzero.symm, by simp⟩
    | cons byte bytes =>
      cases b with
      | nil => exact absurd List.compare_cons_nil hle
      | cons byte' bytes' =>
        rw [List.compare_cons_cons] at hle
        cases hbyte : compare byte byte' with
        | lt =>
          -- the next bytes do not make up for a smaller byte
          have hlt : byte.toNat < byte'.toNat := UInt8.lt_iff_toNat_lt.1 (Std.compare_eq_lt.1 hbyte)
          refine .inl ?_
          calc leading (count + 1) (byte :: bytes) < byte.toNat * 256 ^ count + 256 ^ count :=
                Nat.add_lt_add_left (leading_lt count bytes) _
            _ = (byte.toNat + 1) * 256 ^ count := by ring
            _ ≤ byte'.toNat * 256 ^ count := Nat.mul_le_mul_right _ hlt
            _ ≤ leading (count + 1) (byte' :: bytes') := Nat.le_add_right _ _
        | eq =>
          obtain rfl : byte = byte' := Std.LawfulEqOrd.eq_of_compare hbyte
          rw [hbyte] at hle
          have hrest := @ih bytes bytes' hle
          simp only [leading, length_cons]
          omega
        | gt =>
          rw [hbyte] at hle
          exact absurd rfl hle

theorem normalizedPrefix_mono {first second : Bytes} (hle : compare first second ≠ .gt) :
    normalizedPrefix cls first ≤ normalizedPrefix cls second := by
  have := leading_mono 7 hle
  rw [normalizedPrefix_eq, normalizedPrefix_eq]
  omega

/-- The class of the bytes is the top of their number. -/
theorem normalizedPrefix_bounds (bytes : Bytes) :
    cls * 2 ^ 61 ≤ normalizedPrefix cls bytes ∧ normalizedPrefix cls bytes < (cls + 1) * 2 ^ 61 := by
  have := leading_lt 7 bytes
  rw [normalizedPrefix_eq]
  omega

/-- Bytes that are looked at as a whole are known by their number. -/
theorem leading_injective {n : ℕ} {first second : Bytes} (hfirst : first.length ≤ n)
    (hlen : first.length = second.length) (hleading : leading n first = leading n second) :
    first = second := by
  induction n generalizing first second with
  | zero =>
    obtain rfl : first = [] := length_eq_zero_iff.1 (Nat.le_zero.1 hfirst)
    exact (length_eq_zero_iff.1 hlen.symm).symm
  | succ n ih =>
    cases first with
    | nil => exact (length_eq_zero_iff.1 hlen.symm).symm
    | cons byte bytes =>
      cases second with
      | nil => exact absurd hlen (by simp)
      | cons byte' bytes' =>
        have hbyte : byte.toNat = byte'.toNat := by
          have hdiv := congrArg (· / 256 ^ n) hleading
          simp only [leading] at hdiv
          rwa [mul_comm, Nat.mul_add_div (by positivity),
            Nat.div_eq_of_lt (leading_lt n bytes), mul_comm byte'.toNat,
            Nat.mul_add_div (by positivity), Nat.div_eq_of_lt (leading_lt n bytes')]
            at hdiv
        rw [leading, leading, hbyte, Nat.add_left_cancel_iff] at hleading
        rw [UInt8.toNat_inj.1 hbyte, ih (Nat.le_of_succ_le_succ hfirst)
          (Nat.succ.inj hlen) hleading]

theorem normalizedPrefix_injective {cls : ℕ} {first second : Bytes} (hfirst : first.length ≤ 7)
    (hsecond : second.length ≤ 7) (h : normalizedPrefix cls first = normalizedPrefix cls second) :
    first = second := by
  rw [normalizedPrefix_eq, normalizedPrefix_eq] at h
  exact leading_injective hfirst (by omega) (by omega)

/-! ## The key -/

/-- A number as a double. -/
def toDouble : Numeric → Double
  | .integer value => .finite (nearest value.toInt) (representable_toInt value)
  | .float value => value

variable (key : KeyInfo)

/-- Whether NULL stands above the blobs before the bits are complemented. -/
def rankHigh : Bool :=
  match key.nullsOrder, key.sortOrder with
  | none, _ => false
  | some .first, .asc => false
  | some .first, .desc => true
  | some .last, .asc => true
  | some .last, .desc => false

/-- The number for a value before the bits are complemented, and whether values of the same number
are equal. -/
def normalizedValue : ValueRef → ℕ × Bool
  | .null => (if rankHigh key then 4 * 2 ^ normClassShift else 0, true)
  | .numeric number =>
    (1 * 2 ^ normClassShift + (toDouble number).orderedBits / 2 ^ 3,
      match number with
      | .integer value => value.toInt.natAbs < 2 ^ 49
      | .float _ => false)
  | .text bytes =>
    if key.collation = .unset ∨ key.collation = .binary then
      (normalizedPrefix 2 bytes, bytes.length ≤ 7)
    else (2 * 2 ^ normClassShift, false)
  | .blob bytes => (normalizedPrefix 3 bytes, bytes.length ≤ 7)

/-- `normalized_first_key`, without custom comparators. -/
def normalizedFirstKey (values : List ValueRef) (keyInfo : List KeyInfo) : ℕ × Bool :=
  match values, keyInfo with
  | value :: _, key :: _ =>
    let (norm, decisive) := normalizedValue key value
    (if key.sortOrder = .desc then 2 ^ 64 - 1 - norm else norm,
      decisive && (values.length = 1 && keyInfo.length = 1))
  | _, _ => (0, false)

/-! ## The order -/

variable {locales : LocaleCollations}

/-- Rounding to doubles keeps the order of numbers. -/
theorem toDouble_mono {a b : Numeric} (hle : a.toExtended ≤ b.toExtended) :
    (toDouble a).toExtended ≤ (toDouble b).toExtended := by
  cases a with
  | integer a =>
    cases b with
    | integer b =>
      have hint : a.toInt ≤ b.toInt := by
        exact_mod_cast WithTop.coe_le_coe.1 (WithBot.coe_le_coe.1 hle)
      refine WithBot.coe_le_coe.2 (WithTop.coe_le_coe.2 ?_)
      exact_mod_cast nearest_mono (natAbs_toInt_lt a) (natAbs_toInt_lt b) hint
    | float b =>
      cases b with
      | negInf => exact absurd hle (by simp [Numeric.toExtended, Double.toExtended])
      | posInf => exact WithBot.coe_le_coe.2 le_top
      | finite v hv =>
        exact WithBot.coe_le_coe.2 (WithTop.coe_le_coe.2 (nearest_le hv
          (WithTop.coe_le_coe.1 (WithBot.coe_le_coe.1 hle))))
  | float a =>
    cases b with
    | float b => exact hle
    | integer b =>
      cases a with
      | negInf => exact bot_le
      | posInf => exact absurd hle (by simp [Numeric.toExtended, Double.toExtended])
      | finite v hv =>
        exact WithBot.coe_le_coe.2 (WithTop.coe_le_coe.2 (le_nearest hv
          (WithTop.coe_le_coe.1 (WithBot.coe_le_coe.1 hle))))

variable (k : KeyInfo)

theorem normalizedValue_null :
    normalizedValue k .null = (if rankHigh k then 4 * 2 ^ 61 else 0, true) := rfl

theorem normalizedValue_text (bytes : Bytes) : normalizedValue k (.text bytes) =
      if k.collation = .unset ∨ k.collation = .binary then
        (normalizedPrefix 2 bytes, decide (bytes.length ≤ 7))
      else (2 * 2 ^ 61, false) := rfl

variable {v : ValueRef}

/-- The class of a value is the top of its number. -/
theorem normalizedValue_bounds (hv : v ≠ .null) :
    v.rank * 2 ^ 61 ≤ (normalizedValue k v).1 ∧
      (normalizedValue k v).1 < (v.rank + 1) * 2 ^ 61 := by
  cases v with
  | null => exact absurd rfl hv
  | numeric number =>
    have hbits := ((toDouble number).orderedBits_bounds).2
    have htop : Double.posInf.orderedBits < 2 ^ 64 := by decide
    simp only [normalizedValue, rank, normClassShift]
    omega
  | text bytes =>
    rw [normalizedValue_text]
    split_ifs
    · exact normalizedPrefix_bounds 2 bytes
    · simp only [rank]
      omega
  | blob bytes => exact normalizedPrefix_bounds 3 bytes

/-- The values that are not NULL are numbered in their order. -/
theorem normalizedValue_mono (hfirst : first ≠ .null) (hsecond : second ≠ .null)
    (hle : ValueRef.compareImmutableSingle locales k.collation first second ≠ .gt) :
    (normalizedValue k first).1 ≤ (normalizedValue k second).1 := by
  have hbounds := normalizedValue_bounds k hfirst
  have hbounds' := normalizedValue_bounds k hsecond
  cases first with
  | null => exact absurd rfl hfirst
  | numeric first =>
    cases second with
    | null => exact absurd rfl hsecond
    | numeric second =>
      have hnumbers : first.toExtended ≤ second.toExtended := by
        rw [ValueRef.compareImmutableSingle, ValueRef.cmp, Numeric.cmp_eq] at hle
        · exact not_lt.1 fun hlt => hle (compare_gt_iff_gt.2 hlt)
        · simp
      have := Double.orderedBits_mono (toDouble_mono hnumbers)
      simp only [normalizedValue]
      omega
    | text bytes => exact (hbounds.2.trans_le hbounds'.1).le
    | blob bytes =>
      simp only [ValueRef.rank] at hbounds hbounds'
      omega
  | text first =>
    cases second with
    | null => exact absurd rfl hsecond
    | numeric second => exact absurd rfl hle
    | text second =>
      rw [normalizedValue_text, normalizedValue_text]
      split_ifs with hbinary
      · refine normalizedPrefix_mono 2 ?_
        rcases hbinary with hcollation | hcollation <;> rw [hcollation] at hle <;> exact hle
      · exact le_rfl
    | blob bytes => exact (hbounds.2.trans_le hbounds'.1).le
  | blob first =>
    cases second with
    | null => exact absurd rfl hsecond
    | numeric second | text second => exact absurd rfl hle
    | blob second => exact normalizedPrefix_mono 3 hle

/-- The number of NULL is that of no other value. -/
theorem normalizedValue_ne_null (hv : v ≠ .null) :
    (normalizedValue k v).1 ≠ (normalizedValue k .null).1 := by
  have hbounds := normalizedValue_bounds k hv
  rw [normalizedValue_null]
  cases v with
  | null => exact absurd rfl hv
  | _ =>
    simp only [rank] at hbounds
    split_ifs <;> omega

/-- Values of the same number that decides are equal. -/
theorem normalizedValue_decisive
    (hnorm : (normalizedValue k first).1 = (normalizedValue k second).1)
    (hfirst : (normalizedValue k first).2 = true) (hsecond : (normalizedValue k second).2 = true) :
    first = second := by
  have hnull : first = .null ↔ second = .null := by
    constructor <;> rintro rfl <;> by_contra hne
    · exact normalizedValue_ne_null k hne hnorm.symm
    · exact normalizedValue_ne_null k hne hnorm
  -- values of one number are of one class
  have hclass : first.rank = second.rank := by
    by_cases hne : first = .null
    · rw [hne, hnull.1 hne]
    · have hbounds := normalizedValue_bounds k hne
      have hbounds' := normalizedValue_bounds k (hnull.not.1 hne)
      omega
  cases first with
  | null => exact (hnull.1 rfl).symm
  | numeric first =>
    cases second with
    | null | text second | blob second => cases hclass
    | numeric second =>
      cases first with
      | float first => exact absurd hfirst (by simp [normalizedValue])
      | integer first =>
        cases second with
        | float second => exact absurd hsecond (by simp [normalizedValue])
        | integer second =>
          have hsmall : first.toInt.natAbs < 2 ^ 49 := of_decide_eq_true hfirst
          have hsmall' : second.toInt.natAbs < 2 ^ 49 := of_decide_eq_true hsecond
          have hnear := nearest_of_natAbs_lt (hsmall.trans (by decide))
          have hnear' := nearest_of_natAbs_lt (hsmall'.trans (by decide))
          have hbits := Double.eq_of_orderedBits_div (by rwa [hnear]) (by rwa [hnear'])
            (representable_nearest (hsmall.trans (by decide)))
            (representable_nearest (hsmall'.trans (by decide)))
            (Nat.add_left_cancel hnorm)
          rw [hnear, hnear'] at hbits
          rw [Int64.toInt_inj.1 hbits]
  | text first =>
    cases second with
    | null | numeric second | blob second => cases hclass
    | text second =>
      rw [normalizedValue_text] at hnorm hfirst hsecond
      rw [normalizedValue_text] at hnorm
      split_ifs at hnorm hfirst hsecond
      · rw [normalizedPrefix_injective (of_decide_eq_true hfirst) (of_decide_eq_true hsecond) hnorm]
  | blob first =>
    cases second with
    | null | numeric second | text second => cases hclass
    | blob second =>
      rw [normalizedPrefix_injective (of_decide_eq_true hfirst) (of_decide_eq_true hsecond) hnorm]

/-- The number of a value in a column. -/
def columnNorm (value : ValueRef) : ℕ :=
  if key.sortOrder = .desc then 2 ^ 64 - 1 - (normalizedValue key value).1
  else (normalizedValue key value).1

theorem normalizedValue_lt (v : ValueRef) : (normalizedValue k v).1 < 2 ^ 64 := by
  by_cases hnull : v = .null
  · rw [hnull, normalizedValue_null]
    split_ifs <;> decide
  · have hbounds := (normalizedValue_bounds k hnull).2
    have hrank : v.rank ≤ 3 := by cases v <;> simp [rank]
    omega

/-- NULL stands before or after all other values, as its number does. -/
theorem columnNorm_null (hv : v ≠ .null) :
    (k.cmpInColumn locales .null v = .lt ∧ columnNorm k .null < columnNorm k v) ∨
      (k.cmpInColumn locales .null v = .gt ∧ columnNorm k v < columnNorm k .null) := by
  have hlt := compareImmutableSingle_null_left locales k.collation hv
  have hbounds := normalizedValue_bounds k hv
  have hrank : 1 ≤ v.rank ∧ v.rank ≤ 3 := by
    cases v with
    | null => exact absurd rfl hv
    | _ => simp [rank]
  obtain ⟨sortOrder, collation, nullsOrder⟩ := k
  simp only [KeyInfo.cmpInColumn, KeyInfo.cmpWithSort, hlt, columnNorm, normalizedValue_null,
    rankHigh]
  rcases nullsOrder with _ | _ | _ <;> cases sortOrder <;>
    simp [SortOrder.apply] <;> omega

theorem cmpInColumn_swap (a b : ValueRef) :
    k.cmpInColumn locales b a = (k.cmpInColumn locales a b).swap :=
  OrientedCmp.eq_swap

/-- The numbers of a column are in the order of the column. -/
theorem columnNorm_mono (hle : k.cmpInColumn locales first second ≠ .gt) :
    columnNorm k first ≤ columnNorm k second := by
  rcases eq_or_ne first .null with rfl | hfirst
  · rcases eq_or_ne second .null with rfl | hsecond
    · exact le_rfl
    · rcases @columnNorm_null locales k second hsecond with ⟨-, hlt⟩ | ⟨hgt, -⟩
      · exact hlt.le
      · exact absurd hgt hle
  · rcases eq_or_ne second .null with rfl | hsecond
    · rcases @columnNorm_null locales k first hfirst with ⟨hlt, -⟩ | ⟨-, hlt⟩
      · refine absurd ?_ hle
        rw [cmpInColumn_swap, hlt]
        rfl
      · exact hlt.le
    · rw [k.cmpInColumn_of_ne_null hfirst hsecond] at hle
      unfold columnNorm
      cases hsort : k.sortOrder with
      | asc =>
        rw [hsort] at hle
        exact normalizedValue_mono k hfirst hsecond hle
      | desc =>
        rw [hsort, SortOrder.apply, ← OrientedCmp.eq_swap] at hle
        exact Nat.sub_le_sub_left (normalizedValue_mono k hsecond hfirst hle) _

theorem columnNorm_decisive (hnorm : columnNorm k first = columnNorm k second)
    (ha : (normalizedValue k first).2 = true) (hb : (normalizedValue k second).2 = true) :
    first = second := by
  refine normalizedValue_decisive k ?_ ha hb
  have hlt := normalizedValue_lt k first
  have hlt' := normalizedValue_lt k second
  unfold columnNorm at hnorm
  split_ifs at hnorm
  · omega
  · exact hnorm

theorem cmpInColumn_of_columnNorm_lt (hlt : columnNorm k first < columnNorm k second) :
    k.cmpInColumn locales first second = .lt := by
  by_contra hne
  have hle : k.cmpInColumn locales second first ≠ .gt := by
    rw [cmpInColumn_swap]
    cases hcmp : k.cmpInColumn locales first second with
    | lt => exact absurd hcmp hne
    | eq => simp
    | gt => simp
  exact absurd (columnNorm_mono k hle) hlt.not_ge

/-! ## What the normalized keys say -/

section
variable {keyInfo : List KeyInfo} {values values' : List ValueRef}
  (hlen : values.length = values'.length)
include hlen

/-- Where the normalized keys say anything, both keys have a first column. -/
theorem exists_cons_of_norm (hnorm : normalizedFirstKey values keyInfo ≠ (0, false) ∨
      normalizedFirstKey values' keyInfo ≠ (0, false)) :
    ∃ k keys v rest v' rest', keyInfo = k :: keys ∧ values = v :: rest ∧ values' = v' :: rest' := by
  cases keyInfo with
  | nil =>
    refine absurd hnorm (not_or.2 ⟨not_not.2 ?_, not_not.2 ?_⟩)
    · cases values <;> rfl
    · cases values' <;> rfl
  | cons k keys =>
    cases values with
    | nil =>
      obtain rfl : values' = [] := length_eq_zero_iff.1 hlen.symm
      exact absurd hnorm (not_or.2 ⟨not_not.2 rfl, not_not.2 rfl⟩)
    | cons v rest =>
      obtain ⟨v', rest', rfl⟩ := exists_cons_of_length_eq_add_one hlen.symm
      exact ⟨k, keys, v, rest, v', rest', rfl, rfl, rfl⟩

/-- A smaller normalized key is that of a smaller first column. -/
theorem cmpInColumn_of_norm_lt
    (hlt : (normalizedFirstKey values keyInfo).1 < (normalizedFirstKey values' keyInfo).1) :
    ∃ k keys v rest v' rest', keyInfo = k :: keys ∧ values = v :: rest ∧
      values' = v' :: rest' ∧ k.cmpInColumn locales v v' = .lt := by
  obtain ⟨k, keys, v, rest, v', rest', rfl, rfl, rfl⟩ :=
    @exists_cons_of_norm keyInfo _ _ hlen (.inr fun hzero => by simp [hzero] at hlt)
  exact ⟨k, keys, v, rest, v', rest', rfl, rfl, rfl, cmpInColumn_of_columnNorm_lt k hlt⟩

/-- Equal normalized keys that decide are those of the same single column. -/
theorem eq_of_norm_decisive
    (hsame : (normalizedFirstKey values keyInfo).1 = (normalizedFirstKey values' keyInfo).1)
    (hfirst : (normalizedFirstKey values keyInfo).2 = true)
    (hsecond : (normalizedFirstKey values' keyInfo).2 = true) :
    ∃ k v, keyInfo = [k] ∧ values = [v] ∧ values' = [v] := by
  obtain ⟨k, keys, v, rest, v', rest', rfl, rfl, rfl⟩ :=
    @exists_cons_of_norm keyInfo _ _ hlen (.inl fun hzero => by simp [hzero] at hfirst)
  -- a key that decides has one column
  simp only [normalizedFirstKey, Bool.and_eq_true, decide_eq_true_eq,
    length_cons, Nat.add_eq_right, length_eq_zero_iff] at hfirst hsecond
  obtain ⟨hv, rfl, rfl⟩ := hfirst
  obtain ⟨hv', rfl, -⟩ := hsecond
  obtain rfl := columnNorm_decisive k hsame hv hv'
  exact ⟨k, v, rfl, rfl, rfl⟩

end

end Turso.Sorter
