import Turso.Storage.Varint
import Turso.Vdbe.HashTable.Key

/-!
# Entries of the hash table

A `HashEntry` (`core/vdbe/hash_table.rs`), its size in memory and the bytes it has in a spill file.  A
chunk of a spill file is a list of entries, each behind its length (`encodeEntries`).  What was
written is read back: `deserialize_serialize` for one entry, `parseEntries_encodeEntries` for a chunk.
-/

namespace Turso.HashTable

open LittleEndian List Binary64

variable {values : List Value}

/-! ## Sizes -/

/-- `HashEntry`. -/
structure HashEntry where
  hash : UInt64
  keyValues : List Value
  rowid : Int64
  payloadValues : List Value
  deriving DecidableEq

/-- The size of a value in memory. -/
def Value.sizeBytes : Value → ℕ
  | null => 1
  | integer _ => 8
  | float _ => 8
  | text bytes => bytes.length
  | blob bytes => bytes.length

/-- `size_from_values`. -/
def sizeFromValues (keyValues payloadValues : List Value) : ℕ :=
  (keyValues.map Value.sizeBytes).sum + (payloadValues.map Value.sizeBytes).sum + 8 + 8

variable (entry : HashEntry)

/-- `size_bytes`. -/
def HashEntry.sizeBytes : ℕ :=
  sizeFromValues entry.keyValues entry.payloadValues

/-- `value_serialized_size`. -/
def Value.serializedSize : Value → ℕ
  | null => 1
  | integer _ => 1 + 8
  | float _ => 1 + 8
  | text bytes => 1 + (varintLen bytes.length + bytes.length)
  | blob bytes => 1 + (varintLen bytes.length + bytes.length)

/-- The size of a list of values in a spill file, without its length. -/
def valuesSerializedSize (values : List Value) : ℕ :=
  (values.map Value.serializedSize).sum

/-- `serialized_size`. -/
def HashEntry.serializedSize : ℕ :=
  8 + 8 + varintLen entry.keyValues.length + valuesSerializedSize entry.keyValues +
    varintLen entry.payloadValues.length + valuesSerializedSize entry.payloadValues

/-! ## Writing -/

/-- `serialize_value_to_slice`. -/
def Value.serialize : Value → Bytes
  | null => [nullHash]
  | integer value => intHash :: encode 8 value.toUInt64.toNat
  | float value => floatHash :: encode 8 value.toBits
  | text bytes => textHash :: (writeVarint bytes.length ++ bytes)
  | blob bytes => blobHash :: (writeVarint bytes.length ++ bytes)

/-- The length and the values of a list of values. -/
def serializeValues (values : List Value) : Bytes :=
  writeVarint values.length ++ values.flatMap Value.serialize

/-- `serialize_to_slice`. -/
def HashEntry.serialize : Bytes :=
  encode 8 entry.hash.toNat ++ encode 8 entry.rowid.toUInt64.toNat ++
    serializeValues entry.keyValues ++ serializeValues entry.payloadValues

/-! ## Reading -/

variable (buf : Bytes)

/-- The text or blob behind its length. -/
def deserializeBytes (offset : ℕ) (message : String) : Except LimboError (Bytes × ℕ) := do
  let (length, varintLen) ← readVarint (buf.drop offset)
  let offset := offset + varintLen
  if offset + length > buf.length then .error (.corrupt message)
  else .ok ((buf.drop offset).take length, offset + length)

/-- The eight bytes of a number. -/
def deserializeWord (message : String) : Except LimboError ℕ :=
  if 1 + 8 > buf.length then .error (.corrupt message)
  else .ok (decode ((buf.drop 1).take 8))

/-- `deserialize_value`: a value and the number of bytes it takes. -/
def deserializeValue : Except LimboError (Value × ℕ) :=
  match buf with
  | [] => .error (.corrupt "HashEntry: unexpected end of buffer")
  | valueType :: _ =>
    if valueType = nullHash then .ok (.null, 1)
    else if valueType = intHash then do
      let word ← deserializeWord buf "HashEntry: buffer too small for integer"
      .ok (.integer (UInt64.ofNat word).toInt64, 9)
    else if valueType = floatHash then do
      let word ← deserializeWord buf "HashEntry: buffer too small for float"
      -- the bits of a NaN are read as NULL
      .ok (((SignedDouble.ofBits word).map Value.float).getD .null, 9)
    else if valueType = textHash then do
      let (text, offset) ← deserializeBytes buf 1 "HashEntry: buffer too small for text"
      .ok (.text text, offset)
    else if valueType = blobHash then do
      let (blob, offset) ← deserializeBytes buf 1 "HashEntry: buffer too small for blob"
      .ok (.blob blob, offset)
    else .error (.corrupt s!"HashEntry: unknown value type {valueType}")

/-- The loop over the values of a list: the values and the offset behind them. -/
def deserializeLoop (buf : Bytes) : ℕ → ℕ → Except LimboError (List Value × ℕ)
  | 0, offset => .ok ([], offset)
  | count + 1, offset => do
    let (value, consumed) ← deserializeValue (buf.drop offset)
    let (values, offset) ← deserializeLoop buf count (offset + consumed)
    .ok (value :: values, offset)

/-- The values of a list behind their number. -/
def deserializeValues (offset : ℕ) : Except LimboError (List Value × ℕ) := do
  let (count, varintLen) ← readVarint (buf.drop offset)
  deserializeLoop buf count (offset + varintLen)

/-- `deserialize`: an entry and the number of bytes it takes. -/
def HashEntry.deserialize : Except LimboError (HashEntry × ℕ) :=
  if buf.length < 16 then .error (.corrupt "HashEntry: buffer too small for header")
  else do
    let hash := decode (buf.take 8)
    let rowid := decode ((buf.drop 8).take 8)
    let (keyValues, offset) ← deserializeValues buf 16
    let (payloadValues, offset) ← deserializeValues buf offset
    .ok (⟨UInt64.ofNat hash, keyValues, (UInt64.ofNat rowid).toInt64, payloadValues⟩, offset)

/-! ## The round trip -/

/-- The lengths of an entry fit the machine. -/
structure HashEntry.Fits : Prop where
  keyCount : entry.keyValues.length < 2 ^ 64
  payloadCount : entry.payloadValues.length < 2 ^ 64
  keySize : ∀ value ∈ entry.keyValues, value.sizeBytes < 2 ^ 64
  payloadSize : ∀ value ∈ entry.payloadValues, value.sizeBytes < 2 ^ 64

theorem deserializeWord_encode {word : ℕ} (hword : word < 2 ^ 64) (head : UInt8) (rest : Bytes)
    (message : String) :
    deserializeWord (head :: (encode 8 word ++ rest)) message = .ok word := by
  have hlen : (encode 8 word).length = 8 := length_encode 8 word
  rw [deserializeWord, if_neg (by simp), drop_succ_cons, drop_zero,
    take_append_of_le_length hlen.ge, take_of_length_le hlen.le,
    decode_encode (by omega)]

theorem deserializeBytes_append {bytes : Bytes} (hbytes : bytes.length < 2 ^ 64) (head : UInt8)
    (rest : Bytes) (message : String) :
    deserializeBytes (head :: (writeVarint bytes.length ++ bytes ++ rest)) 1 message =
      .ok (bytes, 1 + ((writeVarint bytes.length).length + bytes.length)) := by
  have hread : readVarint ((head :: (writeVarint bytes.length ++ bytes ++ rest)).drop 1) =
      .ok (bytes.length, (writeVarint bytes.length).length) := by
    rw [drop_succ_cons, drop_zero, append_assoc]
    exact readVarint_writeVarint hbytes _
  rw [deserializeBytes, hread]
  simp only [bind, Except.bind]
  rw [if_neg (by simp; omega), ← drop_drop, drop_succ_cons, drop_zero,
    append_assoc, drop_left, take_left, Nat.add_assoc]

theorem toInt64_ofNat_toUInt64 (value : Int64) : (UInt64.ofNat value.toUInt64.toNat).toInt64 = value := by
  simp

theorem deserializeValue_serialize {value : Value} (hvalue : value.sizeBytes < 2 ^ 64) (rest : Bytes) :
    deserializeValue (value.serialize ++ rest) = .ok (value, value.serialize.length) := by
  cases value with
  | null => rfl
  | integer value =>
    rw [Value.serialize, cons_append, deserializeValue, if_neg (by decide), if_pos rfl,
      deserializeWord_encode value.toUInt64.toNat_lt]
    simp only [bind, Except.bind, toInt64_ofNat_toUInt64, length_cons, length_encode]
  | float value =>
    rw [Value.serialize, cons_append, deserializeValue, if_neg (by decide),
      if_neg (by decide), if_pos rfl, deserializeWord_encode value.toBits_lt]
    simp only [bind, Except.bind, SignedDouble.ofBits_toBits, Option.map_some, Option.getD_some,
      length_cons, length_encode]
  | text bytes =>
    rw [Value.serialize, cons_append, deserializeValue, if_neg (by decide),
      if_neg (by decide), if_neg (by decide), if_pos rfl, deserializeBytes_append hvalue]
    simp only [bind, Except.bind, length_cons, length_append, Nat.add_comm 1]
  | blob bytes =>
    rw [Value.serialize, cons_append, deserializeValue, if_neg (by decide),
      if_neg (by decide), if_neg (by decide), if_neg (by decide), if_pos rfl,
      deserializeBytes_append hvalue]
    simp only [bind, Except.bind, length_cons, length_append, Nat.add_comm 1]

theorem deserializeLoop_serialize (hvalues : ∀ v ∈ values, v.sizeBytes < 2 ^ 64)
    {buf : Bytes} {offset : ℕ} {rest : Bytes}
    (hbuf : buf.drop offset = values.flatMap Value.serialize ++ rest) :
    deserializeLoop buf values.length offset =
      .ok (values, offset + (values.flatMap Value.serialize).length) := by
  induction values generalizing offset with
  | nil => rfl
  | cons v values ih =>
    rw [flatMap_cons, append_assoc] at hbuf
    have hnx : buf.drop (offset + v.serialize.length) = values.flatMap Value.serialize ++ rest := by
      rw [← drop_drop, hbuf, drop_left]
    rw [length_cons, deserializeLoop, hbuf, deserializeValue_serialize (hvalues v mem_cons_self)]
    simp only [bind, Except.bind]
    rw [ih (fun x hx => hvalues x (mem_cons_of_mem _ hx)) hnx]
    simp only [flatMap_cons, length_append, Nat.add_assoc]

theorem deserializeValues_serialize (hn : values.length < 2 ^ 64)
    (hvalues : ∀ v ∈ values, v.sizeBytes < 2 ^ 64) {buf : Bytes} {offset : ℕ} {rest : Bytes}
    (hbuf : buf.drop offset = serializeValues values ++ rest) :
    deserializeValues buf offset = .ok (values, offset + (serializeValues values).length) := by
  have hread : readVarint (buf.drop offset) = .ok (values.length, (writeVarint values.length).length) := by
    rw [hbuf, serializeValues, append_assoc]
    exact readVarint_writeVarint hn _
  have hnx : buf.drop (offset + (writeVarint values.length).length) =
      values.flatMap Value.serialize ++ rest := by
    rw [← drop_drop, hbuf, serializeValues, append_assoc, drop_left]
  rw [deserializeValues, hread]
  simp only [bind, Except.bind]
  rw [deserializeLoop_serialize hvalues hnx, serializeValues, length_append, Nat.add_assoc]

theorem deserialize_serialize {e : HashEntry} (hfits : e.Fits) :
    HashEntry.deserialize e.serialize = .ok (e, e.serialize.length) := by
  obtain ⟨hash, keyValues, rowid, payloadValues⟩ := e
  have hhash := length_encode 8 hash.toNat
  have hrowid := length_encode 8 rowid.toUInt64.toNat
  have hkeys : (HashEntry.serialize ⟨hash, keyValues, rowid, payloadValues⟩).drop 16 =
      serializeValues keyValues ++ serializeValues payloadValues := by
    rw [HashEntry.serialize, append_assoc, drop_append_of_le_length (by simp),
      drop_of_length_le (by simp), nil_append]
  have hpayload : (HashEntry.serialize ⟨hash, keyValues, rowid, payloadValues⟩).drop
      (16 + (serializeValues keyValues).length) = serializeValues payloadValues ++ [] := by
    rw [← drop_drop, hkeys, drop_left, append_nil]
  have htake : (HashEntry.serialize ⟨hash, keyValues, rowid, payloadValues⟩).take 8 =
      encode 8 hash.toNat := by
    rw [HashEntry.serialize, append_assoc, append_assoc,
      take_append_of_le_length hhash.ge, take_of_length_le hhash.le]
  have htake' : ((HashEntry.serialize ⟨hash, keyValues, rowid, payloadValues⟩).drop 8).take 8 =
      encode 8 rowid.toUInt64.toNat := by
    rw [HashEntry.serialize, append_assoc, append_assoc,
      drop_append_of_le_length hhash.ge, drop_of_length_le hhash.le, nil_append,
      take_append_of_le_length hrowid.ge, take_of_length_le hrowid.le]
  have hlen : (HashEntry.serialize ⟨hash, keyValues, rowid, payloadValues⟩).length =
      16 + (serializeValues keyValues).length + (serializeValues payloadValues).length := by
    rw [HashEntry.serialize, length_append, length_append, length_append, hhash, hrowid]
  rw [HashEntry.deserialize, if_neg (by rw [hlen]; omega), htake, htake',
    decode_encode (by have := hash.toNat_lt; omega),
    decode_encode (by have := rowid.toUInt64.toNat_lt; omega),
    deserializeValues_serialize hfits.keyCount hfits.keySize hkeys]
  simp only [bind, Except.bind]
  rw [deserializeValues_serialize hfits.payloadCount hfits.payloadSize hpayload]
  rw [UInt64.ofNat_toNat, toInt64_ofNat_toUInt64, hlen]

theorem length_serialize_value {v : Value} (hv : v.sizeBytes < 2 ^ 64) :
    v.serialize.length = v.serializedSize := by
  cases v with
  | null => rfl
  | integer v | float v => simp [Value.serialize, Value.serializedSize]
  | text bytes | blob bytes =>
    have hlen : (writeVarint bytes.length).length = varintLen bytes.length := length_writeVarint hv
    simp only [Value.serialize, Value.serializedSize, length_cons, length_append, hlen]
    omega

theorem length_serializeValues (hn : values.length < 2 ^ 64)
    (hvalues : ∀ v ∈ values, v.sizeBytes < 2 ^ 64) :
    (serializeValues values).length = varintLen values.length + valuesSerializedSize values := by
  rw [serializeValues, length_append, length_writeVarint hn, length_flatMap,
    valuesSerializedSize, map_congr_left fun v hv => length_serialize_value (hvalues v hv)]

theorem length_serialize {e : HashEntry} (hfits : e.Fits) :
    e.serialize.length = e.serializedSize := by
  simp only [HashEntry.serialize, length_append, length_encode,
    length_serializeValues hfits.keyCount hfits.keySize,
    length_serializeValues hfits.payloadCount hfits.payloadSize, HashEntry.serializedSize]
  omega

/-! ## Chunks -/

/-- An entry in a chunk: its length and its bytes. -/
def encodeEntry : Bytes :=
  writeVarint entry.serializedSize ++ entry.serialize

/-- The bytes of a chunk. -/
def encodeEntries (entries : List HashEntry) : Bytes :=
  entries.flatMap encodeEntry

/-- The loop of `parse_partition_chunk`: the entries that are complete, and the bytes that begin another
one.  The first argument bounds the loop. -/
def parseEntries : ℕ → Bytes → Except LimboError (List HashEntry × Bytes)
  | 0, buf => .ok ([], buf)
  | fuel + 1, buf =>
    if buf = [] then .ok ([], [])
    else do
      match ← readVarintPartial buf with
      | none => .ok ([], buf)
      | some (entryLen, varintSize) =>
        if varintSize + entryLen > buf.length then .ok ([], buf)
        else do
          let (entry, consumed) ← HashEntry.deserialize ((buf.drop varintSize).take entryLen)
          if consumed ≠ entryLen then .error (.assertion "expected to consume entire entry")
          else do
            let (entries, left) ← parseEntries fuel (buf.drop (varintSize + entryLen))
            .ok (entry :: entries, left)

theorem encodeEntries_cons (e : HashEntry) (entries : List HashEntry) :
    encodeEntries (e :: entries) = encodeEntry e ++ encodeEntries entries :=
  flatMap_cons

/-- A chunk is parsed into its entries. -/
theorem parseEntries_encodeEntries {entries : List HashEntry} {fuel : ℕ} (hfuel : entries.length ≤ fuel)
    (hfits : ∀ e ∈ entries, e.Fits ∧ e.serializedSize < 2 ^ 64) :
    parseEntries fuel (encodeEntries entries) = .ok (entries, []) := by
  induction entries generalizing fuel with
  | nil => cases fuel <;> rfl
  | cons e entries ih =>
    obtain ⟨he, hsize⟩ := hfits e mem_cons_self
    cases fuel with
    | zero => simp at hfuel
    | succ fuel =>
      have hlen := length_serialize he
      have hread : readVarintPartial (encodeEntries (e :: entries)) =
          .ok (some (e.serializedSize, (writeVarint e.serializedSize).length)) := by
        rw [encodeEntries_cons, encodeEntry, append_assoc]
        exact readVarintPartial_iff.2 (readVarint_writeVarint hsize _)
      have hne : encodeEntries (e :: entries) ≠ [] := by
        intro hnil
        rw [hnil] at hread
        cases hread
      have hrest := ih (Nat.le_of_succ_le_succ hfuel) (fun x hx => hfits x (mem_cons_of_mem _ hx))
      rw [parseEntries, if_neg hne, hread]
      simp only [bind, Except.bind]
      rw [if_neg]
      · rw [encodeEntries_cons, encodeEntry, append_assoc, ← drop_drop, drop_left,
          ← hlen, take_left, drop_left, deserialize_serialize he]
        simp only [ne_eq, not_true_eq_false, if_false, hrest]
      · rw [encodeEntries_cons, encodeEntry, length_append, length_append, hlen]
        omega

end Turso.HashTable
