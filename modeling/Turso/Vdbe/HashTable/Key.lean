import Turso.Foundation.Binary64Codec
import Turso.Foundation.LittleEndian
import Turso.Types.Value

/-!
# Keys of the hash table

The keys of hash joins and of DISTINCT (`core/vdbe/hash_table.rs`): when two keys are equal, and what
`hash_join_key` feeds to the hasher for a key.  Equality goes through the order of the numbers and
through the collations; hashing normalises each value by itself.  `keyWrites_eq` says that equal keys
are fed to the hasher alike: an integer that is equal to a float is hashed as that float, the two zeros
have the same bits, and of a text the hasher sees what its collation looks at.
-/

namespace Turso.HashTable

open Binary64 WithTop

variable {collation : CollationSeq} {collations : List CollationSeq}

/-! ## Values -/

/-- `Value`.  A float has a sign also where it is zero. -/
inductive Value where
  | null
  | integer (value : Int64)
  | float (value : SignedDouble)
  | text (value : Bytes)
  | blob (value : Bytes)
  deriving DecidableEq

/-- `as_ref`: comparisons do not see the sign of zero. -/
def Value.asRef : Value → ValueRef
  | null => .null
  | integer value => .numeric (.integer value)
  | float value => .numeric (.float value.double)
  | text value => .text value
  | blob value => .blob value

/-- The locale collations with their sort keys: texts that compare as equal have the same one. -/
structure HashLocales extends LocaleCollations where
  sortKey : ℕ → Bytes → Bytes
  sortKey_eq : ∀ id first second, compare id first second = .eq → sortKey id first = sortKey id second

variable (locales : HashLocales)

/-! ## Equality -/

variable {first second : List Value} {equal : CollationSeq → Value → Value → Bool}

/-- `values_equal`. -/
def valuesEqual (collation : CollationSeq) (first second : Value) : Bool :=
  match first.asRef, second.asRef with
  | .null, _ => false
  | _, .null => false
  | .numeric first, .numeric second => first.cmp second = .eq
  | .blob first, .blob second => first = second
  | .text first, .text second => collation.compareStrings locales.toLocaleCollations first second = .eq
  | _, _ => false

/-- `values_equal_distinct`. -/
def valuesEqualDistinct (collation : CollationSeq) (first second : Value) : Bool :=
  match first, second with
  | .null, .null => true
  | .null, _ => false
  | _, .null => false
  | first, second => valuesEqual locales collation first second

/-- The loop of `keys_equal` and `keys_equal_distinct`; keys of different lengths are not equal, and a
column without a collation is compared as binary. -/
def keysAgree (equal : CollationSeq → Value → Value → Bool) :
    List CollationSeq → List Value → List Value → Bool
  | _, [], [] => true
  | collations, first :: firsts, second :: seconds =>
    equal (collations.headD .binary) first second && keysAgree equal collations.tail firsts seconds
  | _, _, _ => false

/-- `keys_equal`. -/
def keysEqual (collations : List CollationSeq) (first second : List Value) : Bool :=
  keysAgree (valuesEqual locales) collations first second

/-- `keys_equal_distinct`. -/
def keysEqualDistinct (collations : List CollationSeq) (first second : List Value) : Bool :=
  keysAgree (valuesEqualDistinct locales) collations first second

/-! ## Hashing -/

/-- A call of the hasher. -/
inductive HashWrite where
  | u8 (value : UInt8)
  | i64 (value : Int64)
  | usize (value : ℕ)
  | bytes (value : Bytes)
  deriving DecidableEq

def nullHash : UInt8 := 0
def intHash : UInt8 := 1
def floatHash : UInt8 := 2
def textHash : UInt8 := 3
def blobHash : UInt8 := 4

/-- The loop of `hash_text_nocase`: through the first byte that is zero. -/
def nocaseWrites : Bytes → List HashWrite
  | [] => []
  | byte :: bytes => .u8 (toAsciiLowercase byte) :: if byte = 0 then [] else nocaseWrites bytes

variable (text : Bytes)

/-- `hash_text_nocase`. -/
def hashTextNocase : List HashWrite :=
  .usize text.length :: nocaseWrites text

variable (value : SignedDouble)

/-- `normalized_f64_bits`. -/
def normalizedF64Bits : ℕ :=
  if value.double = .zero then (SignedDouble.ofDouble .zero).toBits else value.toBits

/-- `as f64`. -/
def asF64 (value : Int64) : SignedDouble :=
  .ofDouble (.finite (nearest value.toInt) (representable_toInt value))

/-- `as i64` of a float that is a whole number. -/
def saturateI64 (value : ℤ) : ℤ :=
  max (-9223372036854775808) (min value 9223372036854775807)

/-- What is hashed for a float. -/
def floatWrites : List HashWrite :=
  [.u8 floatHash, .bytes (LittleEndian.encode 8 (normalizedF64Bits value))]

/-- What is hashed for a text after its type.  `HashTable::new` refuses custom collations. -/
def textWrites : CollationSeq → List HashWrite
  | .noCase => hashTextNocase text
  | .rtrim => [.bytes (text.rdropWhile (· = 32))]
  | .binary | .unset => [.bytes text]
  | .locale id => [.bytes (locales.sortKey id text)]
  | .custom _ => []

/-- What `hash_join_key` hashes for one value. -/
def valueWrites (collation : CollationSeq) : Value → List HashWrite
  | .null => [.u8 nullHash]
  | .integer value =>
    if saturateI64 (nearest value.toInt) = value.toInt then floatWrites (asF64 value)
    else [.u8 intHash, .i64 value]
  | .float value => floatWrites value
  | .text text => .u8 textHash :: textWrites locales text collation
  | .blob blob => [.u8 blobHash, .bytes blob]

/-- What `hash_join_key` hashes. -/
def keyWrites : List CollationSeq → List Value → List HashWrite
  | _, [] => []
  | collations, value :: values =>
    valueWrites locales (collations.headD .binary) value ++ keyWrites collations.tail values

/-! ## Equal keys hash equally -/

variable {locales}

theorem toExtended_injective : Function.Injective Double.toExtended := by
  intro a b h
  cases a with
  | negInf => cases b <;> simp_all [Double.toExtended]
  | posInf =>
    cases b with
    | negInf => cases h
    | posInf => rfl
    | finite v _ => exact absurd (WithBot.coe_injective h) top_ne_coe
  | finite v _ =>
    cases b with
    | negInf => cases h
    | posInf => exact absurd (WithBot.coe_injective h) coe_ne_top
    | finite v' _ =>
      obtain rfl := coe_injective (WithBot.coe_injective h)
      rfl

theorem floatWrites_eq {first second : SignedDouble} (h : first.double = second.double) :
    floatWrites first = floatWrites second := by
  obtain ⟨double, sign, hzero⟩ := first
  obtain ⟨double', sign', hzero'⟩ := second
  subst h
  unfold floatWrites normalizedF64Bits
  split_ifs with hdouble
  · rfl
  · -- a double that is not zero has its own sign
    have hsign : sign = false := by
      cases sign with
      | false => rfl
      | true => exact absurd (hzero rfl) hdouble
    have hsign' : sign' = false := by
      cases sign' with
      | false => rfl
      | true => exact absurd (hzero' rfl) hdouble
    subst hsign hsign'
    rfl

/-- An integer that is equal to a float is hashed as that float. -/
theorem integerWrites_eq {int : Int64} {float : SignedDouble} (collation : CollationSeq)
    (h : (Numeric.integer int).toExtended = float.double.toExtended) :
    valueWrites locales collation (.integer int) = floatWrites float := by
  have hlow := int.le_toInt
  have hhigh := int.toInt_lt
  obtain ⟨double, sign, hzero⟩ := float
  cases double with
  | negInf => cases h
  | posInf => exact absurd (WithBot.coe_injective h) coe_ne_top
  | finite value hvalue =>
    obtain rfl : (int.toInt : ℚ) = value := coe_injective (WithBot.coe_injective h)
    have hnearest : nearest int.toInt = int.toInt := by
      have hround := nearest_truncate hvalue
      rw [truncate_intCast] at hround
      exact_mod_cast hround
    have hsaturate : saturateI64 int.toInt = int.toInt := by
      unfold saturateI64
      omega
    rw [valueWrites, hnearest, if_pos hsaturate]
    refine floatWrites_eq ?_
    simp only [asF64, SignedDouble.ofDouble, hnearest]

theorem numericWrites_eq {first second : Value} {number number' : Numeric} (collation : CollationSeq)
    (hfirst : first.asRef = .numeric number) (hsecond : second.asRef = .numeric number')
    (h : number.cmp number' = .eq) :
    valueWrites locales collation first = valueWrites locales collation second := by
  rw [Numeric.cmp_eq, compare_eq_iff_eq] at h
  cases first with
  | integer int =>
    cases hfirst
    cases second with
    | integer int' =>
      cases hsecond
      have hint : (int.toInt : ℚ) = int'.toInt := coe_injective (WithBot.coe_injective h)
      have hsame : int = int' := Int64.toInt_inj.1 (by exact_mod_cast hint)
      rw [hsame]
    | float float =>
      cases hsecond
      exact integerWrites_eq collation h
    | _ => cases hsecond
  | float float =>
    cases hfirst
    cases second with
    | integer int =>
      cases hsecond
      exact (integerWrites_eq collation h.symm).symm
    | float float' =>
      cases hsecond
      exact floatWrites_eq (toExtended_injective h)
    | _ => cases hsecond
  | _ => cases hfirst

theorem toAsciiLowercase_eq_zero (byte : UInt8) : toAsciiLowercase byte = 0 ↔ byte = 0 := by
  unfold toAsciiLowercase
  split_ifs with hupper
  · constructor
    · intro hzero
      have hlow := UInt8.le_iff_toNat_le.1 hupper.1
      have hhigh := UInt8.le_iff_toNat_le.1 hupper.2
      have hsum := congrArg UInt8.toNat hzero
      simp at hlow hhigh hsum
      omega
    · rintro rfl
      exact absurd hupper.1 (by decide)
  · rfl

theorem nocaseWrites_eq : nocaseWrites text = (throughNul (text.map toAsciiLowercase)).map .u8 := by
  induction text with
  | nil => rfl
  | cons byte bytes ih =>
    rw [List.map_cons, throughNul_cons, List.map_cons, nocaseWrites, ih]
    simp only [toAsciiLowercase_eq_zero]
    split_ifs <;> rfl

/-- Texts that a collation says are equal are hashed alike. -/
theorem textWrites_eq {a b : Bytes}
    (h : collation.compareStrings locales.toLocaleCollations a b = .eq) :
    textWrites locales a collation = textWrites locales b collation := by
  cases collation with
  | unset | binary => rw [Std.LawfulEqOrd.eq_of_compare h]
  | custom id => rfl
  | locale id => rw [textWrites, textWrites, locales.sortKey_eq id _ _ h]
  | rtrim => rw [textWrites, textWrites, Std.LawfulEqOrd.eq_of_compare h]
  | noCase =>
    rw [CollationSeq.compareStrings, nocaseCmp_eq, compareLex, Ordering.then_eq_eq] at h
    have hbytes := Std.LawfulEqOrd.eq_of_compare h.1
    have hlen := Std.LawfulEqOrd.eq_of_compare h.2
    dsimp only at hbytes
    rw [textWrites, textWrites, hashTextNocase, hashTextNocase, nocaseWrites_eq, nocaseWrites_eq,
      hbytes, hlen]

theorem eq_text_of_asRef {v : Value} {text : Bytes} (h : v.asRef = .text text) :
    v = .text text := by
  cases v with
  | text bytes =>
    cases h
    rfl
  | _ => cases h

theorem eq_blob_of_asRef {v : Value} {blob : Bytes} (h : v.asRef = .blob blob) :
    v = .blob blob := by
  cases v with
  | blob bytes =>
    cases h
    rfl
  | _ => cases h

theorem valueWrites_eq {first second : Value}
    (h : valuesEqual locales collation first second = true) :
    valueWrites locales collation first = valueWrites locales collation second := by
  unfold valuesEqual at h
  split at h
  · cases h
  · cases h
  · exact numericWrites_eq collation ‹_› ‹_› (of_decide_eq_true h)
  · rename_i hfirst hsecond
    rw [eq_blob_of_asRef hfirst, eq_blob_of_asRef hsecond, of_decide_eq_true h]
  · rename_i hfirst hsecond
    rw [eq_text_of_asRef hfirst, eq_text_of_asRef hsecond, valueWrites, valueWrites,
      textWrites_eq (of_decide_eq_true h)]
  · cases h

theorem valueWrites_eq_of_distinct {first second : Value}
    (h : valuesEqualDistinct locales collation first second = true) :
    valueWrites locales collation first = valueWrites locales collation second := by
  unfold valuesEqualDistinct at h
  split at h
  · rfl
  · cases h
  · cases h
  · exact valueWrites_eq h

theorem keyWrites_eq_of_keysAgree
    (hequal : ∀ collation first second, equal collation first second = true →
      valueWrites locales collation first = valueWrites locales collation second)
    (h : keysAgree equal collations first second = true) :
    keyWrites locales collations first = keyWrites locales collations second := by
  induction first generalizing collations second with
  | nil =>
    cases second with
    | nil => rfl
    | cons _ _ => cases h
  | cons v values ih =>
    cases second with
    | nil => cases h
    | cons v' values' =>
      rw [keysAgree, Bool.and_eq_true] at h
      rw [keyWrites, keyWrites, hequal _ _ _ h.1, ih h.2]

/-- Keys that DISTINCT takes as equal are hashed alike. -/
theorem keyWrites_eq (h : keysEqualDistinct locales collations first second = true) :
    keyWrites locales collations first = keyWrites locales collations second :=
  keyWrites_eq_of_keysAgree (fun _ _ _ => valueWrites_eq_of_distinct) h

/-! ## Where a key lands -/

/-- `Partitioning`: the number of partitions is a power of two. -/
structure Partitioning where
  bits : ℕ
  bits_le : bits ≤ 64

namespace Partitioning

variable (partitioning : Partitioning)

def count : ℕ := 2 ^ partitioning.bits

/-- `index`: the top bits of the hash.  A shift by 64 is one by zero. -/
def index (hash : UInt64) : ℕ :=
  hash.toNat / 2 ^ ((64 - partitioning.bits) % 64) % partitioning.count

theorem index_lt (hash : UInt64) : partitioning.index hash < partitioning.count :=
  Nat.mod_lt _ (Nat.two_pow_pos _)

end Partitioning

/-- The bucket of a hash among `count`. -/
def bucketIndex (count : ℕ) (hash : UInt64) : ℕ := hash.toNat % count

/-- Equal keys, by either equality, feed the same writes to the hasher, and so land in the same
partition and bucket whatever the hash function makes of them. -/
theorem equal_keys_hash_equally (locales : HashLocales) (collations : List CollationSeq)
    (first second : List Value)
    (h : keysEqual locales collations first second = true ∨
      keysEqualDistinct locales collations first second = true) :
    keyWrites locales collations first = keyWrites locales collations second ∧
      ∀ (hasher : List HashWrite → UInt64) (partitioning : Partitioning) (buckets : ℕ),
        partitioning.index (hasher (keyWrites locales collations first)) =
            partitioning.index (hasher (keyWrites locales collations second)) ∧
          bucketIndex buckets (hasher (keyWrites locales collations first)) =
            bucketIndex buckets (hasher (keyWrites locales collations second)) := by
  have hwrites : keyWrites locales collations first = keyWrites locales collations second := by
    rcases h with h | h
    · exact keyWrites_eq_of_keysAgree (fun _ _ _ => valueWrites_eq) h
    · exact keyWrites_eq h
  refine ⟨hwrites, fun hasher partitioning buckets => ?_⟩
  rw [hwrites]
  exact ⟨rfl, rfl⟩

/-- The locales of an empty registry. -/
def noLocales : HashLocales where
  toLocaleCollations := emptyLocales
  sortKey _ text := text
  sortKey_eq _ _ _ h := Std.LawfulEqOrd.eq_of_compare h

/-- `-0.0`. -/
def negativeZero : SignedDouble := ⟨.zero, true, fun _ => rfl⟩

/-- `0`, `'aB\0x'` without case and `'c '` without the blanks at its end against `-0.0`, `'Ab\0y'` and
`'c'`. -/
theorem equal_keys_hash_equally_mixed : keysEqual noLocales [.binary, .noCase, .rtrim]
        [.integer 0, .text [97, 66, 0, 120], .text [99, 32]]
        [.float negativeZero, .text [65, 98, 0, 121], .text [99]] = true ∧
      keyWrites noLocales [.binary, .noCase, .rtrim]
          [.integer 0, .text [97, 66, 0, 120], .text [99, 32]] =
        keyWrites noLocales [.binary, .noCase, .rtrim]
          [.float negativeZero, .text [65, 98, 0, 121], .text [99]] := by
  have hequal : keysEqual noLocales [.binary, .noCase, .rtrim]
      [.integer 0, .text [97, 66, 0, 120], .text [99, 32]]
      [.float negativeZero, .text [65, 98, 0, 121], .text [99]] = true := by decide +kernel
  exact ⟨hequal, (equal_keys_hash_equally noLocales _ _ _ (.inl hequal)).1⟩

/-! ## The equality of DISTINCT -/

theorem valuesEqualDistinct_iff (collation : CollationSeq) (a b : Value) :
    valuesEqualDistinct locales collation a b = true ↔
      ValueRef.compareImmutableSingle locales.toLocaleCollations collation a.asRef b.asRef =
        .eq := by
  cases a <;> cases b <;>
    simp [valuesEqualDistinct, valuesEqual, Value.asRef, ValueRef.compareImmutableSingle, ValueRef.cmp]

theorem keysAgree_refl (hequal : ∀ collation v, equal collation v v = true)
    (collations : List CollationSeq) (k : List Value) :
    keysAgree equal collations k k = true := by
  induction k generalizing collations with
  | nil => rfl
  | cons v values ih => rw [keysAgree, hequal, ih, Bool.and_self]

theorem keysAgree_trans
    (hequal : ∀ collation first second third, equal collation first second = true →
      equal collation second third = true → equal collation first third = true) {third : List Value}
    (h : keysAgree equal collations first second = true)
    (h' : keysAgree equal collations second third = true) :
    keysAgree equal collations first third = true := by
  induction first generalizing collations second third with
  | nil =>
    cases second with
    | nil => exact h'
    | cons _ _ => cases h
  | cons v values ih =>
    cases second with
    | nil => cases h
    | cons v' values' =>
      cases third with
      | nil => cases h'
      | cons value'' values'' =>
        rw [keysAgree, Bool.and_eq_true] at h h'
        rw [keysAgree, hequal _ _ _ _ h.1 h'.1, ih h.2 h'.2, Bool.and_self]

/-- DISTINCT compares keys by an equivalence. -/
theorem keysEqualDistinct_refl (collations : List CollationSeq) (k : List Value) :
    keysEqualDistinct locales collations k k = true :=
  keysAgree_refl (fun collation v => (valuesEqualDistinct_iff collation v v).2
    Std.ReflCmp.compare_self) collations k

theorem keysEqualDistinct_trans {third : List Value}
    (h : keysEqualDistinct locales collations first second = true)
    (h' : keysEqualDistinct locales collations second third = true) :
    keysEqualDistinct locales collations first third = true := by
  refine keysAgree_trans (fun collation first second third h h' => ?_) h h'
  rw [valuesEqualDistinct_iff] at h h' ⊢
  exact Std.TransCmp.eq_trans h h'

end Turso.HashTable
