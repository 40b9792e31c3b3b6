import Turso.Storage.Varint
import Turso.Vdbe.HashTable.Key

/-!
# Records

The serialized form of a row (`core/types.rs`, `core/storage/sqlite3_ondisk.rs`): a header with its own
length and the serial types of the columns, and behind it the values.  `build` writes a record,
`ValueIterator` reads it column by column.

The length of the header counts the varint it is written in.  `calcHeaderSize_eq` says that the loop
that looks for it comes to a fixed point.  An integer is stored without its high bytes where these
only repeat the sign, and `fromBeBytes_signExtend` says that reading it brings them back.
-/

namespace Turso.Record

open Binary64 (SignedDouble)
open HashTable (Value)

/-! ## Serial types -/

/-- `SerialType`, with the size of a text or a blob. -/
inductive SerialType where
  | null
  | i8
  | i16
  | i24
  | i32
  | i48
  | i64
  | f64
  | constInt0
  | constInt1
  | blob (size : ℕ)
  | text (size : ℕ)
  deriving DecidableEq, Repr

namespace SerialType

/-- The `u64` of a serial type. -/
def code : SerialType → ℕ
  | null => 0
  | i8 => 1
  | i16 => 2
  | i24 => 3
  | i32 => 4
  | i48 => 5
  | i64 => 6
  | f64 => 7
  | constInt0 => 8
  | constInt1 => 9
  | blob size => 12 + size * 2
  | text size => 13 + size * 2

/-- `try_from`, with `kind`. -/
def tryFrom : ℕ → Except LimboError SerialType
  | 0 => .ok null
  | 1 => .ok i8
  | 2 => .ok i16
  | 3 => .ok i24
  | 4 => .ok i32
  | 5 => .ok i48
  | 6 => .ok i64
  | 7 => .ok f64
  | 8 => .ok constInt0
  | 9 => .ok constInt1
  | 10 => .error (.corrupt "Invalid serial type: 10")
  | 11 => .error (.corrupt "Invalid serial type: 11")
  | n + 12 => if n % 2 = 0 then .ok (blob (n / 2)) else .ok (text ((n - 1) / 2))

/-- `size`. -/
def size : SerialType → ℕ
  | null | constInt0 | constInt1 => 0
  | i8 => 1
  | i16 => 2
  | i24 => 3
  | i32 => 4
  | i48 => 6
  | i64 | f64 => 8
  | blob size | text size => size

/-- The bytes of the machine integer that an integer is read into. -/
def wordSize : SerialType → ℕ
  | i24 => 4
  | i48 => 8
  | serialType => serialType.size

/-- `SerialType::from`. -/
def ofValue : Value → SerialType
  | .null => null
  | .integer value =>
    let i := value.toInt
    if i = 0 then constInt0
    else if i = 1 then constInt1
    else if -128 ≤ i ∧ i ≤ 127 then i8
    else if -32768 ≤ i ∧ i ≤ 32767 then i16
    else if -8388608 ≤ i ∧ i ≤ 8388607 then i24
    else if -2147483648 ≤ i ∧ i ≤ 2147483647 then i32
    else if -140737488355328 ≤ i ∧ i ≤ 140737488355327 then i48
    else i64
  | .float _ => f64
  | .text bytes => text bytes.length
  | .blob bytes => blob bytes.length

end SerialType

/-! ## Big-endian integers -/

/-- `to_be_bytes` of the low `size` bytes. -/
def toBeBytes (size : ℕ) (value : ℤ) : Bytes :=
  (LittleEndian.encode size (value % 256 ^ size).toNat).reverse

variable (bytes : Bytes)

/-- `from_be_bytes` of a signed integer. -/
def fromBeBytes : ℤ :=
  let value := LittleEndian.decode bytes.reverse
  if 2 * value < 256 ^ bytes.length then value else value - 256 ^ bytes.length

/-- The bytes behind copies of their sign. -/
def signExtend (size : ℕ) (bytes : Bytes) : Bytes :=
  List.replicate (size - bytes.length) (if bytes.headD 0 ≤ 0x7f then 0 else 0xff) ++ bytes

/-! ## Writing -/

/-- `write_value`: of an integer the low bytes of its word. -/
def writeValue : Value → Bytes
  | .null => []
  | .integer value =>
    let serialType := SerialType.ofValue (.integer value)
    (toBeBytes serialType.wordSize value.toInt).drop (serialType.wordSize - serialType.size)
  | .float value => toBeBytes 8 value.toBits
  | .text bytes | .blob bytes => bytes

/-- The loop of `calc_header_size`. -/
def calcHeaderLoop (sizeofSerialTypes : ℕ) : ℕ → ℕ → ℕ
  | 0, headerSize => headerSize
  | rounds + 1, headerSize =>
    let next := sizeofSerialTypes + (writeVarint headerSize).length
    if next = headerSize then headerSize else calcHeaderLoop sizeofSerialTypes rounds next

/-- `calc_header_size`, with enough rounds of its loop. -/
def calcHeaderSize (sizeofSerialTypes : ℕ) : ℕ :=
  if sizeofSerialTypes < 127 then sizeofSerialTypes + 1
  else calcHeaderLoop sizeofSerialTypes 4 sizeofSerialTypes

/-- `MAX_BLOB_LENGTH`. -/
def maxBlobLength : ℕ := 1000000000

variable (values : List Value)

/-- The serial types of the values, as they stand in the header. -/
def serialTypes : Bytes :=
  values.flatMap fun value => writeVarint (SerialType.ofValue value).code

inductive BuildError where
  | tooBig
  | assertion (message : String)
  deriving DecidableEq

/-- `ImmutableRecord::build`: the sizes first, then the bytes at their places. -/
def build : Except BuildError Bytes :=
  let sizeHeader := (values.map fun value => varintLen (SerialType.ofValue value).code).sum
  let sizeValues := (values.map fun value => (SerialType.ofValue value).size).sum
  let headerSize := calcHeaderSize sizeHeader
  let totalSize := headerSize + sizeValues
  if totalSize > maxBlobLength then .error .tooBig
  else
    let header := writeVarint headerSize ++ serialTypes values
    let data := values.flatMap writeValue
    if header.length = headerSize ∧ headerSize + data.length = totalSize then .ok (header ++ data)
    else .error (.assertion "record sizing pass and writing pass disagree")

/-- `Record::serialize` into an empty buffer. -/
def serialize : Bytes :=
  writeVarint (calcHeaderSize (serialTypes values).length) ++
    (serialTypes values ++ values.flatMap writeValue)

/-! ## Reading -/

variable (buf : Bytes)

/-- A slice from an index on; past the end of the buffer it panics. -/
def sliceFrom (start : ℕ) : Except LimboError Bytes :=
  if start ≤ buf.length then .ok (buf.drop start)
  else .error (.assertion "range start index out of range for slice")

/-- `validate_utf8`. -/
def validateUtf8 : Bool := (ByteArray.mk bytes.toArray).validateUTF8

/-- The messages of `read_value_serial_type` and `read_integer` for a value that is cut off. -/
def serialTypeMessage (length : ℕ) : SerialType → String
  | .blob _ => "Invalid Blob value"
  | .text size => s!"Invalid String value, length {length} < expected length {size}"
  | .f64 => "Invalid 8-byte float"
  | serialType => s!"Invalid {serialType.size}-byte int"

/-- The messages of `read_value` for a value that is cut off. -/
def valueMessage (length : ℕ) : SerialType → String
  | .blob _ => "Invalid Blob value"
  | .text size => s!"Invalid String value, length {length} < expected length {size}"
  | .f64 => "Invalid BEFloat64 value"
  | .i8 => "Invalid UInt8 value"
  | serialType => s!"Invalid BEInt{8 * serialType.size} value"

/-- The value of some bytes of the right length. -/
def decodeValue : SerialType → Except LimboError Value
  | .null => .ok .null
  | .constInt0 => .ok (.integer 0)
  | .constInt1 => .ok (.integer 1)
  -- the bits of a NaN are read as NULL
  | .f64 => .ok (((SignedDouble.ofBits (LittleEndian.decode bytes.reverse)).map .float).getD .null)
  | .blob _ => .ok (.blob bytes)
  | .text _ =>
    if validateUtf8 bytes then .ok (.text bytes)
    else .error (.corrupt "TEXT value contains invalid UTF-8")
  | serialType =>
    .ok (.integer (Int64.ofInt (fromBeBytes (signExtend serialType.wordSize bytes))))

/-- The value at the front of a buffer, and its size. -/
def readWith (message : ℕ → SerialType → String) (buf : Bytes) (serialType : SerialType) :
    Except LimboError (Value × ℕ) :=
  if buf.length < serialType.size then .error (.corrupt (message buf.length serialType))
  else (decodeValue (buf.take serialType.size) serialType).map (·, serialType.size)

/-- `read_value`. -/
def readValue (serialType : SerialType) : Except LimboError (Value × ℕ) :=
  readWith valueMessage buf serialType

/-- `read_value_serial_type`. -/
def readValueSerialType (serial : ℕ) : Except LimboError (Value × ℕ) :=
  match SerialType.tryFrom serial with
  | .error _ => .error (.corrupt "Invalid serial type for integer")
  | .ok serialType => readWith serialTypeMessage buf serialType

/-- `ValueIterator`. -/
structure ValueIterator where
  headerSection : Bytes
  dataSection : Bytes

namespace ValueIterator

/-- `new`. -/
def new (payload : Bytes) : Except LimboError ValueIterator := do
  let (headerSize, headerVarintLen) ← readVarint payload
  if headerSize > payload.length ∨ headerVarintLen > payload.length ∨ headerVarintLen > headerSize then
    .error (.corrupt "Payload too small for indicated header size")
  else .ok ⟨(payload.take headerSize).drop headerVarintLen, payload.drop headerSize⟩

/-- `next`: the serial type is gone from the header also where its value cannot be read. -/
def next (iterator : ValueIterator) : Option (Except LimboError Value) × ValueIterator :=
  if iterator.headerSection = [] then (none, iterator)
  else
    match readVarint iterator.headerSection with
    | .error error => (some (.error error), iterator)
    | .ok (serial, bytesRead) =>
      match sliceFrom iterator.headerSection bytesRead with
      | .error error => (some (.error error), iterator)
      | .ok header =>
        let iterator := { iterator with headerSection := header }
        match (do
          let (value, n) ← readValueSerialType iterator.dataSection serial
          let data ← sliceFrom iterator.dataSection n
          .ok (value, data)) with
        | .error error => (some (.error error), iterator)
        | .ok (value, data) => (some (.ok value), { iterator with dataSection := data })

end ValueIterator

end Turso.Record
