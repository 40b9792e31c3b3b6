import Turso.Types.Record

/-!
# Records are read back as they were written

`build` and `Record::serialize` write the same bytes, and the iterator yields the values of a record in
order (`record_roundTrip`).
-/

namespace Turso.Record

open SerialType LittleEndian List ValueIterator

open Binary64 (SignedDouble)
open HashTable (Value)

variable {bytes : Bytes} {values : List Value}

/-! ## Integers -/

theorem fromBeBytes_bounds (bytes : Bytes) :
    -256 ^ bytes.length ≤ 2 * fromBeBytes bytes ∧ 2 * fromBeBytes bytes < 256 ^ bytes.length := by
  have hlt : decode bytes.reverse < 256 ^ bytes.length := by
    simpa using decode_lt bytes.reverse
  zify at hlt
  unfold fromBeBytes
  dsimp only
  split_ifs with hsmall
  · zify at hsmall
    omega
  · zify at hsmall
    omega

/-- The sign is in the first byte. -/
theorem two_mul_decode_lt_iff (a : UInt8) (rest : Bytes) :
    2 * decode (a :: rest).reverse < 256 ^ (a :: rest).length ↔ a ≤ 0x7f := by
  have hrest := decode_lt rest.reverse
  have hle : a ≤ 0x7f ↔ a.toNat ≤ 127 := UInt8.le_iff_toNat_le
  rw [length_reverse] at hrest
  rw [reverse_cons, decode_append, length_reverse, length_cons, pow_succ,
    hle, decode, decode, Nat.mul_zero, Nat.add_zero]
  generalize 256 ^ rest.length = power at *
  constructor
  · intro hlt
    by_contra hge
    have : power * 128 ≤ power * a.toNat := Nat.mul_le_mul_left _ (by omega)
    omega
  · intro hle
    have : power * a.toNat ≤ power * 127 := Nat.mul_le_mul_left _ hle
    omega

theorem decode_replicate_ones (n : ℕ) : decode (replicate n 0xff) + 1 = 256 ^ n := by
  induction n with
  | zero => rfl
  | succ n ih =>
    rw [replicate_succ, decode, pow_succ, ← ih]
    simp
    ring

theorem decode_replicate_zero (n : ℕ) : decode (replicate n 0) = 0 := by
  induction n with
  | zero => rfl
  | succ n ih => simp [replicate_succ, decode, ih]

/-- Copies of the sign do not change an integer. -/
theorem fromBeBytes_signExtend (size : ℕ) (hne : bytes ≠ []) :
    fromBeBytes (signExtend size bytes) = fromBeBytes bytes := by
  obtain ⟨first, rest, hbytes⟩ := exists_cons_of_ne_nil hne
  have hhead : bytes.headD 0 = first := by rw [hbytes]; rfl
  have hsign := hbytes ▸ two_mul_decode_lt_iff first rest
  have hlt := decode_lt bytes.reverse
  rw [length_reverse] at hlt
  simp only [fromBeBytes, signExtend, hhead, reverse_append, reverse_replicate,
    decode_append, length_append, length_replicate, length_reverse]
  generalize size - bytes.length = copies
  have hcopies : 0 < 256 ^ copies := by positivity
  by_cases hfirst : first ≤ 0x7f
  · have hsmall := hsign.mpr hfirst
    have hpower : 256 ^ bytes.length ≤ 256 ^ (copies + bytes.length) :=
      Nat.pow_le_pow_right (by decide) (by omega)
    simp only [if_pos hfirst, decode_replicate_zero, Nat.mul_zero, Nat.add_zero]
    rw [if_pos (by omega), if_pos hsmall]
  · have hlarge := mt hsign.mp hfirst
    have hones := decode_replicate_ones copies
    have hpower : 256 ^ (copies + bytes.length) =
        256 ^ bytes.length * decode (replicate copies 0xff) + 256 ^ bytes.length := by
      rw [pow_add, ← hones]
      ring
    simp only [if_neg hfirst]
    rw [if_neg (by omega), if_neg hlarge]
    zify at hpower
    push_cast
    omega

theorem fromBeBytes_toBeBytes {size : ℕ} {value : ℤ} (hlow : -256 ^ size ≤ 2 * value)
    (hhigh : 2 * value < 256 ^ size) : fromBeBytes (toBeBytes size value) = value := by
  have hpos : (0 : ℤ) < 256 ^ size := by positivity
  have hnonneg := Int.emod_nonneg value hpos.ne'
  have hlt := Int.emod_lt_of_pos value hpos
  have hdecode : decode (toBeBytes size value).reverse = (value % 256 ^ size).toNat := by
    rw [toBeBytes, reverse_reverse, decode_encode]
    zify
    omega
  have hlen : (toBeBytes size value).length = size := by simp [toBeBytes]
  have hmod : value % 256 ^ size = if 0 ≤ value then value else value + 256 ^ size := by
    split_ifs with h
    · exact Int.emod_eq_of_lt h (by omega)
    · rw [← Int.add_emod_right, Int.emod_eq_of_lt (by omega) (by omega)]
  simp only [fromBeBytes, hdecode, hlen]
  zify
  rw [Int.toNat_of_nonneg hnonneg, hmod]
  split_ifs <;> omega

/-- The low bytes of a word are the integer in fewer bytes. -/
theorem drop_toBeBytes {size total : ℕ} (hle : size ≤ total) (value : ℤ) :
    (toBeBytes total value).drop (total - size) = toBeBytes size value := by
  have hdvd : (256 : ℤ) ^ size ∣ 256 ^ total := pow_dvd_pow _ hle
  have hnonneg := Int.emod_nonneg value (show (256 : ℤ) ^ total ≠ 0 by positivity)
  have hmod : (value % 256 ^ total).toNat % 256 ^ size = (value % 256 ^ size).toNat := by
    rw [← Int.emod_emod_of_dvd value hdvd]
    zify
    rw [Int.toNat_of_nonneg hnonneg, Int.toNat_of_nonneg (Int.emod_nonneg _ (by positivity))]
  rw [toBeBytes, drop_reverse, length_encode, Nat.sub_sub_self hle,
    take_encode hle, hmod, toBeBytes]

/-! ## Values -/

theorem tryFrom_code (serialType : SerialType) : tryFrom serialType.code = .ok serialType := by
  cases serialType with
  | blob size | text size =>
    rw [code, Nat.add_comm, tryFrom]
    simp
  | _ => rfl

/-- The serial types that `read_integer` reads from bytes. -/
def isWord : SerialType → Bool
  | .i8 | .i16 | .i24 | .i32 | .i48 | .i64 => true
  | _ => false

variable (w : Int64)

/-- The serial type of an integer is wide enough for it. -/
theorem ofValue_integer : w = 0 ∧ ofValue (.integer w) = .constInt0 ∨
      w = 1 ∧ ofValue (.integer w) = .constInt1 ∨
      isWord (ofValue (.integer w)) = true ∧
        -256 ^ (ofValue (.integer w)).size ≤ 2 * w.toInt ∧
        2 * w.toInt < 256 ^ (ofValue (.integer w)).size := by
  have hlow := w.le_toInt
  have hhigh := w.toInt_lt
  unfold ofValue
  dsimp only
  split_ifs with hzero hone h8 h16 h24 h32 h48
  · exact .inl ⟨Int64.toInt.inj hzero, rfl⟩
  · exact .inr (.inl ⟨Int64.toInt.inj hone, rfl⟩)
  all_goals
    refine .inr (.inr ⟨rfl, ?_⟩)
    norm_num [size]
    omega

/-- The texts of the program are UTF-8. -/
def hasUtf8 : Value → Bool
  | .text bytes => validateUtf8 bytes
  | _ => true

theorem writeValue_integer :
    writeValue (.integer w) = toBeBytes (ofValue (.integer w)).size w.toInt := by
  have hle : (ofValue (.integer w)).size ≤ (ofValue (.integer w)).wordSize := by
    cases ofValue (.integer w) <;> simp [size, wordSize]
  exact drop_toBeBytes hle _

@[simp]
theorem length_writeValue (w : Value) : (writeValue w).length = (ofValue w).size := by
  cases w with
  | integer w => simp [writeValue_integer, toBeBytes]
  | float w => simp [writeValue, toBeBytes, ofValue, size]
  | _ => rfl

variable {serialType : SerialType}

theorem decodeValue_isWord (htype : isWord serialType = true)
    (hlen : bytes.length = serialType.size) :
    decodeValue bytes serialType = .ok (.integer (Int64.ofInt (fromBeBytes bytes))) := by
  have hne : bytes ≠ [] := by
    rintro rfl
    cases serialType with
    | i8 | i16 | i24 | i32 | i48 | i64 => cases hlen
    | _ => cases htype
  cases serialType with
  | i8 | i16 | i24 | i32 | i48 | i64 => simp only [decodeValue, fromBeBytes_signExtend _ hne]
  | _ => cases htype

theorem decodeValue_writeValue {value : Value} (hutf8 : hasUtf8 value = true) :
    decodeValue (writeValue value) (ofValue value) = .ok value := by
  cases value with
  | null | blob bytes => rfl
  | integer value =>
    obtain ⟨rfl, htype⟩ | ⟨rfl, htype⟩ | ⟨htype, hlow, hhigh⟩ := ofValue_integer value
    · rfl
    · rfl
    · rw [decodeValue_isWord htype (length_writeValue _), writeValue_integer,
        fromBeBytes_toBeBytes hlow hhigh, Int64.ofInt_toInt]
  | float value =>
    have hlt := value.toBits_lt
    have hdecode : decode (writeValue (.float value)).reverse = value.toBits := by
      rw [writeValue, toBeBytes, reverse_reverse, decode_encode] <;> omega
    rw [ofValue, decodeValue, hdecode, SignedDouble.ofBits_toBits]
    rfl
  | text bytes =>
    exact if_pos hutf8

/-- A serial type is passed over where the integer is too large for it. -/
theorem size_ofValue_cases : (ofValue (.integer w)).size ≤ 1 ∨
    (ofValue (.integer w)).size ≤ 2 ∧ (w.toInt < -128 ∨ 127 < w.toInt) ∨
    (ofValue (.integer w)).size ≤ 3 ∧ (w.toInt < -32768 ∨ 32767 < w.toInt) ∨
    (ofValue (.integer w)).size ≤ 4 ∧ (w.toInt < -8388608 ∨ 8388607 < w.toInt) ∨
    (ofValue (.integer w)).size ≤ 6 ∧ (w.toInt < -2147483648 ∨ 2147483647 < w.toInt) ∨
    (ofValue (.integer w)).size ≤ 8 ∧
      (w.toInt < -140737488355328 ∨ 140737488355327 < w.toInt) := by
  rw [ofValue]
  split_ifs <;> simp only [size] <;> omega

/-- An integer is in no serial type that is shorter than its own. -/
theorem size_ofValue_le {w : Int64}
    (hlen : bytes.length = serialType.size)
    (hdecode : decodeValue bytes serialType = .ok (.integer w)) :
    (ofValue (.integer w)).size ≤ serialType.size := by
  by_cases htype : isWord serialType = true
  · have hbounds := fromBeBytes_bounds bytes
    have hsize : serialType.size ≤ 8 := by
      cases serialType with
      | i8 | i16 | i24 | i32 | i48 | i64 => decide
      | _ => cases htype
    have hpower : (256 : ℤ) ^ serialType.size ≤ 256 ^ 8 := pow_le_pow_right₀ (by norm_num) hsize
    rw [decodeValue_isWord htype hlen] at hdecode
    cases hdecode
    rw [hlen] at hbounds
    have htoInt : (Int64.ofInt (fromBeBytes bytes)).toInt = fromBeBytes bytes :=
      Int64.toInt_ofInt_of_le (by omega) (by omega)
    have hcases := size_ofValue_cases (Int64.ofInt (fromBeBytes bytes))
    rw [htoInt] at hcases
    generalize (ofValue (.integer (Int64.ofInt (fromBeBytes bytes)))).size = chosen at hcases ⊢
    cases serialType with
    | i8 | i16 | i24 | i32 | i48 | i64 =>
      simp only [size] at hbounds ⊢
      omega
    | _ => cases htype
  · cases serialType with
    | constInt0 | constInt1 =>
      cases hdecode
      decide
    | null | blob => cases hdecode
    | f64 =>
      cases hbits : SignedDouble.ofBits (decode bytes.reverse) <;>
        simp [decodeValue, hbits] at hdecode
    | text =>
      rw [decodeValue] at hdecode
      split_ifs at hdecode
      cases hdecode
    | _ => exact absurd rfl htype

/-! ## Sizes -/

variable {n : ℕ}

theorem length_writeVarint_log2 (hpos : 0 < n) (hn : n < 2 ^ 56) :
    (writeVarint n).length = n.log2 / 7 + 1 := by
  rw [length_writeVarint (by omega), varintLen]
  split_ifs with hone
  · have : n.log2 < 7 := (Nat.log2_lt hpos.ne').mpr (by omega)
    omega
  · omega
  · omega

/-- A few bytes more make a varint at most one byte longer. -/
theorem length_writeVarint_add {i j : ℕ} (hlow : 6 ≤ n) (hn : n < 2 ^ 34) (hle : i ≤ j) (hj : j ≤ 6) :
    (writeVarint (n + i)).length ≤ (writeVarint (n + j)).length ∧
      (writeVarint (n + j)).length ≤ (writeVarint (n + i)).length + 1 ∧
      0 < (writeVarint (n + i)).length ∧ (writeVarint (n + i)).length ≤ 5 := by
  have hi : n + i ≠ 0 := by omega
  have hmono : (n + i).log2 ≤ (n + j).log2 :=
    (Nat.le_log2 (by omega)).mpr ((Nat.log2_self_le hi).trans (by omega))
  have hgrow : (n + j).log2 < (n + i).log2 + 2 := by
    have := @Nat.lt_log2_self (n + i)
    rw [Nat.log2_lt (by omega), pow_succ]
    omega
  have hbound : (n + i).log2 < 35 := (Nat.log2_lt hi).mpr (by omega)
  rw [length_writeVarint_log2 (by omega) (by omega), length_writeVarint_log2 (by omega) (by omega)]
  omega

/-- The length of the header counts the varint it is written in. -/
theorem calcHeaderSize_eq (hn : n < 2 ^ 34) :
    calcHeaderSize n = n + (writeVarint (calcHeaderSize n)).length := by
  rw [calcHeaderSize]
  split_ifs with hsmall
  · rw [writeVarint, if_pos (by omega), length_singleton]
  · -- the length grows in the first round or not at all
    have hzero := length_writeVarint_add (by omega) hn (le_refl 0) (by omega)
    obtain ⟨a, ha⟩ : ∃ length, (writeVarint n).length = length := ⟨_, rfl⟩
    rw [Nat.add_zero, ha] at hzero
    have hone := length_writeVarint_add (by omega) hn (Nat.zero_le a) (by omega)
    obtain ⟨b, hb⟩ : ∃ length, (writeVarint (n + a)).length = length := ⟨_, rfl⟩
    rw [Nat.add_zero, ha, hb] at hone
    have htwo := length_writeVarint_add (by omega) hn (Nat.zero_le b) (by omega)
    have hthree := length_writeVarint_add (by omega) hn (show a ≤ b by omega) (by omega)
    rw [Nat.add_zero, ha] at htwo
    rw [hb] at hthree
    simp only [calcHeaderLoop, ha, hb]
    split_ifs <;> omega

theorem length_serialTypes (hvalues : ∀ w ∈ values, (ofValue w).code < 2 ^ 64) :
    (serialTypes values).length = (values.map fun w => varintLen (ofValue w).code).sum := by
  rw [serialTypes, length_flatMap]
  congr 1
  refine map_congr_left fun w hm => ?_
  exact length_writeVarint (hvalues w hm)

theorem length_data : (values.flatMap writeValue).length =
    (values.map fun w => (ofValue w).size).sum := by
  simp [length_flatMap]

/-! ## The iterator -/

/-- The iterator yields the values one after the other. -/
inductive Yields : ValueIterator → List Value → ValueIterator → Prop where
  | nil (iterator : ValueIterator) : Yields iterator [] iterator
  | cons {iterator middle last : ValueIterator} {value : Value} {values : List Value}
      (hnext : iterator.next = (some (.ok value), middle)) (hrest : Yields middle values last) :
      Yields iterator (value :: values) last

theorem next_writeValue {value : Value} (hutf8 : hasUtf8 value = true)
    (hcode : (ofValue value).code < 2 ^ 64) (header data : Bytes) :
    ValueIterator.next ⟨writeVarint (ofValue value).code ++ header, writeValue value ++ data⟩ =
      (some (.ok value), ⟨header, data⟩) := by
  have hread := readVarint_writeVarint hcode header
  have hne : writeVarint (ofValue value).code ++ header ≠ [] := by
    intro hnil
    rw [hnil] at hread
    cases hread
  have hvalue : readValueSerialType (writeValue value ++ data) (ofValue value).code =
      .ok (value, (ofValue value).size) := by
    simp [readValueSerialType, tryFrom_code, readWith, ← length_writeValue,
      decodeValue_writeValue hutf8, Except.map]
  simp [ValueIterator.next, hne, hread, hvalue, sliceFrom, ← length_writeValue, bind, Except.bind]

theorem yields_values
    (hvalues : ∀ w ∈ values, hasUtf8 w = true ∧ (ofValue w).code < 2 ^ 64) :
    Yields ⟨serialTypes values, values.flatMap writeValue⟩ values ⟨[], []⟩ := by
  induction values with
  | nil => exact .nil _
  | cons w values ih =>
    obtain ⟨hutf8, hcode⟩ := hvalues w (by simp)
    exact .cons (next_writeValue hutf8 hcode _ _) (ih fun y hy => hvalues y (by simp [hy]))

/-! ## The round trip -/

theorem code_lt {w : Value} (hm : w ∈ values)
    (hdata : (values.flatMap writeValue).length ≤ maxBlobLength) :
    (ofValue w).code < 2 ^ 64 := by
  have hle : (ofValue w).size ≤ (values.flatMap writeValue).length := by
    rw [length_data]
    exact single_le_sum (by simp) _ (mem_map_of_mem hm)
  have hcode : (ofValue w).code ≤ 13 + 2 * (ofValue w).size := by
    cases ofValue w <;> simp [code, size] <;> omega
  rw [maxBlobLength] at hdata
  omega

theorem take_drop_serialize (hheader : (serialTypes values).length < 2 ^ 34) :
    (serialize values).take (calcHeaderSize (serialTypes values).length) =
        writeVarint (calcHeaderSize (serialTypes values).length) ++ serialTypes values ∧
      (serialize values).drop (calcHeaderSize (serialTypes values).length) =
        values.flatMap writeValue := by
  have hlen : calcHeaderSize (serialTypes values).length =
      (writeVarint (calcHeaderSize (serialTypes values).length) ++ serialTypes values).length := by
    rw [length_append, Nat.add_comm]
    exact calcHeaderSize_eq hheader
  rw [serialize, ← append_assoc]
  constructor
  · exact take_left' hlen.symm
  · exact drop_left' hlen.symm

theorem length_serialize : (serialize values).length =
    (writeVarint (calcHeaderSize (serialTypes values).length)).length +
      ((serialTypes values).length + (values.flatMap writeValue).length) := by
  rw [serialize, length_append, length_append]

section
variable (hfits : (serialize values).length ≤ maxBlobLength)
include hfits

theorem code_lt_of_fits {w : Value} (hm : w ∈ values) : (ofValue w).code < 2 ^ 64 := by
  rw [length_serialize] at hfits
  exact code_lt hm (by omega)

theorem length_serialTypes_lt : (serialTypes values).length < 2 ^ 34 := by
  rw [length_serialize, maxBlobLength] at hfits
  omega

theorem readVarint_serialize : readVarint (serialize values) =
    .ok (calcHeaderSize (serialTypes values).length,
      (writeVarint (calcHeaderSize (serialTypes values).length)).length) := by
  have hsize := calcHeaderSize_eq (length_serialTypes_lt hfits)
  rw [length_serialize, maxBlobLength] at hfits
  exact readVarint_writeVarint (by omega) _

theorem new_serialize : new (serialize values) =
    .ok ⟨serialTypes values, values.flatMap writeValue⟩ := by
  have hsize := calcHeaderSize_eq (length_serialTypes_lt hfits)
  obtain ⟨htake, hdrop⟩ := take_drop_serialize (length_serialTypes_lt hfits)
  have hlen := @length_serialize values
  rw [new, readVarint_serialize hfits]
  simp only [bind, Except.bind]
  rw [if_neg (by omega), htake, hdrop, drop_left]

theorem build_eq_serialize : build values = .ok (serialize values) := by
  have hsize := calcHeaderSize_eq (length_serialTypes_lt hfits)
  have hcodes (w : Value) (hm : w ∈ values) := code_lt_of_fits hfits hm
  rw [length_serialize] at hfits
  simp only [build, ← length_serialTypes hcodes, ← length_data]
  rw [if_neg (by omega), if_pos ⟨by rw [length_append]; omega, trivial⟩, serialize, append_assoc]

end

theorem fits_of_build (hbuild : build values = .ok bytes) :
    (serialize values).length ≤ maxBlobLength ∧ bytes = serialize values := by
  simp only [build] at hbuild
  split_ifs at hbuild with hbig hsizes
  cases hbuild
  have hcodes (w : Value) (hm : w ∈ values) := @code_lt _ w hm (by omega)
  rw [← length_serialTypes hcodes, ← length_data] at *
  rw [length_serialize, serialize, append_assoc]
  rw [length_append] at hsizes
  exact ⟨by omega, rfl⟩

/-- **What `build` writes, the iterator reads**, value by value and no further; `serialize` writes the
same.  The first varint is the length of the header, and no serial type shorter than its own holds an
integer. -/
theorem record_roundTrip (hutf8 : ∀ value ∈ values, hasUtf8 value = true)
    (hfits : (serialize values).length ≤ maxBlobLength) :
    ∃ (bytes : Bytes) (iterator last : ValueIterator) (headerSize length : ℕ),
      build values = .ok bytes ∧ serialize values = bytes ∧
      new bytes = .ok iterator ∧ Yields iterator values last ∧ last.next.1 = none ∧
      readVarint bytes = .ok (headerSize, length) ∧ length = (writeVarint headerSize).length ∧
      bytes.take headerSize = writeVarint headerSize ++ serialTypes values ∧
      bytes.drop headerSize = values.flatMap writeValue ∧
      headerSize = length + (serialTypes values).length ∧
      ∀ (value : Int64) (serialType : SerialType) (word : Bytes), .integer value ∈ values →
        word.length = serialType.size → decodeValue word serialType = .ok (.integer value) →
        (ofValue (.integer value)).size ≤ serialType.size := by
  have hheader := length_serialTypes_lt hfits
  have hsize := calcHeaderSize_eq hheader
  obtain ⟨htake, hdrop⟩ := take_drop_serialize hheader
  exact ⟨serialize values, _, ⟨[], []⟩, _, _, build_eq_serialize hfits, rfl, new_serialize hfits,
    yields_values fun w hm => ⟨hutf8 w hm, code_lt_of_fits hfits hm⟩, rfl,
    readVarint_serialize hfits, rfl, htake, hdrop, by omega,
    fun w serialType word _ hword => size_ofValue_le hword⟩

theorem record_roundTrip_mixed :
    (∀ value ∈ [Value.integer (-8388609), .text [0x61], .null], hasUtf8 value = true) ∧
      ∃ iterator last, new [4, 4, 15, 0, 0xff, 0x7f, 0xff, 0xff, 0x61] = .ok iterator ∧
        Yields iterator [.integer (-8388609), .text [0x61], .null] last := by
  have hutf8 : ∀ w ∈ [Value.integer (-8388609), .text [0x61], .null], hasUtf8 w = true := by
    decide +kernel
  have hbytes : serialize [Value.integer (-8388609), .text [0x61], .null] =
      [4, 4, 15, 0, 0xff, 0x7f, 0xff, 0xff, 0x61] := by decide +kernel
  obtain ⟨_, iterator, last, _, _, _, rfl, hnew, hyields, _⟩ :=
    record_roundTrip hutf8 (by rw [hbytes]; decide)
  rw [hbytes] at hnew
  exact ⟨hutf8, iterator, last, hnew, hyields⟩

end Turso.Record
