import Turso.Foundation.ByteBuffer
import Turso.Storage.PageSize

/-!
# The format of the write-ahead log

A log file is a header of 32 bytes followed by frames, each a header of 24 bytes and a
page (`core/storage/sqlite3_ondisk.rs`).  Every frame repeats the two salts of the log
header and carries a checksum over all frames so far, so that a reader can tell where
the frames of the present generation end.

`bigEndian` is the byte order of the machine; the checksum reads its input in that order
or the other one, as the magic number says.
-/

namespace Turso.Wal

open List ByteBuffer UInt32

/-- A checksum: the two running sums. -/
abbrev Checksum := UInt32 × UInt32

variable (bytes : List UInt8)

/-- The big-endian integer in the four bytes at offset `off`. -/
def u32At (off : ℕ) : UInt32 :=
  ofNat (ofBytes ((bytes.drop off).take 4))

def u32Bytes (value : UInt32) : List UInt8 := u32ToBytes value.toNat

/-- `WAL_HEADER_SIZE`. -/
def walHeaderSize : ℕ := 32

/-- `WAL_FRAME_HEADER_SIZE`. -/
def walFrameHeaderSize : ℕ := 24

/-- `WalHeader`. -/
structure WalHeader where
  magic : UInt32
  fileFormat : UInt32
  pageSize : UInt32
  checkpointSeq : UInt32
  salt1 : UInt32
  salt2 : UInt32
  checksum1 : UInt32
  checksum2 : UInt32
  deriving DecidableEq, Repr

/-- The size of a frame, its header included. -/
def WalHeader.frameSize (header : WalHeader) : ℕ := walFrameHeaderSize + header.pageSize.toNat

/-- The first 24 bytes of the header: what its checksum is computed over. -/
def WalHeader.checkedBytes (header : WalHeader) : List UInt8 :=
  u32Bytes header.magic ++ u32Bytes header.fileFormat ++ u32Bytes header.pageSize ++
    u32Bytes header.checkpointSeq ++ u32Bytes header.salt1 ++ u32Bytes header.salt2

/-- `begin_write_wal_header`: the bytes it writes at the start of the file. -/
def WalHeader.toBytes (header : WalHeader) : List UInt8 :=
  header.checkedBytes ++ u32Bytes header.checksum1 ++ u32Bytes header.checksum2

/-- The header in the first bytes of a file. -/
def WalHeader.ofBytes : WalHeader where
  magic := u32At bytes 0
  fileFormat := u32At bytes 4
  pageSize := u32At bytes 8
  checkpointSeq := u32At bytes 12
  salt1 := u32At bytes 16
  salt2 := u32At bytes 20
  checksum1 := u32At bytes 24
  checksum2 := u32At bytes 28

/-! ## Checksums -/

/-- A word of the input of the checksum: `from_ne_bytes`, swapped if not native. -/
def checksumWord (bigEndian native : Bool) (b0 b1 b2 b3 : UInt8) : UInt32 :=
  if native = bigEndian then ofNat (ofBytes [b0, b1, b2, b3])
  else ofNat (ofBytes [b3, b2, b1, b0])

/-- `checksum_wal`. -/
def checksumWal (bigEndian native : Bool) : List UInt8 → Checksum → Checksum
  | b0 :: b1 :: b2 :: b3 :: b4 :: b5 :: b6 :: b7 :: rest, (s0, s1) =>
    let s0 := s0 + (checksumWord bigEndian native b0 b1 b2 b3 + s1)
    let s1 := s1 + (checksumWord bigEndian native b4 b5 b6 b7 + s0)
    checksumWal bigEndian native rest (s0, s1)
  | _, sums => sums

section
variable (bigEndian : Bool)

/-- Whether the checksums of a log are in the byte order of the machine. -/
def WalHeader.useNative (header : WalHeader) : Bool :=
  bigEndian == (header.magic &&& 1 != 0)

def WalHeader.checksum (header : WalHeader) : Checksum := (header.checksum1, header.checksum2)

/-- A word as the machine stores it. -/
def nativeBytes (value : UInt32) : List UInt8 :=
  if bigEndian then u32Bytes value else (u32Bytes value).reverse

/-- `WalHeader::as_bytes`, up to the checksum: the header as it lies in memory. -/
def WalHeader.asBytes (header : WalHeader) : List UInt8 :=
  nativeBytes bigEndian header.magic ++ nativeBytes bigEndian header.fileFormat ++
    nativeBytes bigEndian header.pageSize ++ nativeBytes bigEndian header.checkpointSeq ++
    nativeBytes bigEndian header.salt1 ++ nativeBytes bigEndian header.salt2

/-- `WAL_MAGIC_BE` or `WAL_MAGIC_LE`. -/
def walMagic : UInt32 := if bigEndian then 0x377f0683 else 0x377f0682

/-- `prepare_wal_header`, with the two random numbers it may draw. -/
def prepareWalHeader (initialized : Bool) (random : UInt32 × UInt32) (pageSize : PageSize)
    (header : WalHeader) : Option WalHeader :=
  if initialized then none
  else
    let header := { header with magic := walMagic bigEndian }
    let header :=
      if header.pageSize = 0 then { header with pageSize := ofNat pageSize.get } else header
    let header :=
      if header.salt1 = 0 ∧ header.salt2 = 0 then
        { header with salt1 := random.1, salt2 := random.2 }
      else header
    -- the flag differs from the one of the reader, and so does the order of the bytes
    let sums := checksumWal bigEndian (header.magic &&& 1 != 0) (header.asBytes bigEndian) (0, 0)
    some { header with checksum1 := sums.1, checksum2 := sums.2 }

/-- A header that the reader accepts. -/
structure WalHeader.Valid (header : WalHeader) : Prop where
  pageSize_valid : (PageSize.new header.pageSize.toNat).isSome
  checksum_eq : checksumWal bigEndian (header.useNative bigEndian) header.checkedBytes (0, 0) =
    header.checksum

/-! ## Frames -/

/-- `parse_wal_frame_header`, field by field. -/
def pageNumber (frame : List UInt8) : UInt32 := u32At frame 0
def dbSize (frame : List UInt8) : UInt32 := u32At frame 4
def salts (frame : List UInt8) : UInt32 × UInt32 := (u32At frame 8, u32At frame 12)
def storedChecksum (frame : List UInt8) : Checksum := (u32At frame 16, u32At frame 20)
def pageOf (frame : List UInt8) : List UInt8 := frame.drop walFrameHeaderSize

/-- The checksum of a frame: over the first eight bytes and the page, continuing that of
the frame before. -/
def frameChecksum (native : Bool) (prev : Checksum) (frame : List UInt8) : Checksum :=
  checksumWal bigEndian native (pageOf frame) (checksumWal bigEndian native (frame.take 8) prev)

/-- A page to be logged, with the database size if it is the last of a transaction. -/
structure LoggedPage where
  pageNumber : UInt32
  dbSize : UInt32
  page : List UInt8

/-- `prepare_wal_frame_header` and the page, with the checksum `sums` filled in. -/
def frameBytes (header : WalHeader) (logged : LoggedPage) (sums : Checksum) : List UInt8 :=
  u32Bytes logged.pageNumber ++ u32Bytes logged.dbSize ++ u32Bytes header.salt1 ++
    u32Bytes header.salt2 ++ u32Bytes sums.1 ++ u32Bytes sums.2 ++ logged.page

/-- `prepare_wal_frame`. -/
def prepareWalFrame (header : WalHeader) (prev : Checksum) (logged : LoggedPage) :
    Checksum × List UInt8 :=
  let sums := frameChecksum bigEndian (header.useNative bigEndian) prev
    (frameBytes header logged (0, 0))
  (sums, frameBytes header logged sums)

end

/-- `prepare_frames`: the frames of some pages, each chained to the one before. -/
def prepareFrames (bigEndian : Bool) (header : WalHeader) :
    Checksum → List LoggedPage → List (List UInt8)
  | _, [] => []
  | prev, logged :: rest =>
    let prepared := prepareWalFrame bigEndian header prev logged
    prepared.2 :: prepareFrames bigEndian header prepared.1 rest

/-! ## Reading back what was written -/

@[simp] theorem length_u32Bytes (v : UInt32) : (u32Bytes v).length = 4 := rfl

@[simp] theorem u32At_append_zero (value : UInt32) (rest : List UInt8) :
    u32At (u32Bytes value ++ rest) 0 = value := by
  have htake : ((u32Bytes value ++ rest).drop 0).take 4 = u32Bytes value := rfl
  rw [u32At, htake, u32Bytes, ofBytes_u32ToBytes value.toNat_lt, UInt32.ofNat_toNat]

theorem u32At_append_of_le {off : ℕ} (v : UInt32) (rest : List UInt8) (hoff : 4 ≤ off) :
    u32At (u32Bytes v ++ rest) off = u32At rest (off - 4) := by
  obtain ⟨skip, rfl⟩ := Nat.exists_eq_add_of_le hoff
  have hdrop : (u32Bytes v ++ rest).drop (4 + skip) = rest.drop skip := by
    rw [← length_u32Bytes v]
    exact drop_length_add_append skip
  rw [u32At, u32At, hdrop, Nat.add_sub_cancel_left]

theorem WalHeader.length_toBytes (header : WalHeader) : header.toBytes.length = walHeaderSize := rfl

/-- A header is read back from the file it was written to. -/
theorem WalHeader.ofBytes_toBytes (header : WalHeader) (rest : List UInt8) :
    WalHeader.ofBytes (header.toBytes ++ rest) = header := by
  simp [ofBytes, toBytes, checkedBytes, append_assoc, u32At_append_of_le]

/-- The writer sums the words of the header as they lie in memory, the reader as they lie
in the file.  The two flags make up for it. -/
theorem checksumWal_asBytes (bigEndian : Bool) (header : WalHeader)
    (hmagic : header.magic = walMagic bigEndian) :
    checksumWal bigEndian (header.magic &&& 1 != 0) (header.asBytes bigEndian) (0, 0) =
      checksumWal bigEndian (header.useNative bigEndian) header.checkedBytes (0, 0) := by
  rw [WalHeader.useNative, hmagic]
  cases bigEndian with
  | false => rfl
  | true => rfl

/-- The header of a writer passes the checks of the reader. -/
theorem prepareWalHeader_valid {bigEndian initialized : Bool} {random : UInt32 × UInt32}
    {pageSize : PageSize} {header prepared : WalHeader}
    (hsize : header.pageSize = 0 ∨ (PageSize.new header.pageSize.toNat).isSome)
    (hprepared : prepareWalHeader bigEndian initialized random pageSize header = some prepared) :
    prepared.Valid bigEndian := by
  have hget : (ofNat pageSize.get).toNat = pageSize.get :=
    toNat_ofNat_of_lt' (lt_of_le_of_lt pageSize.get_le (by decide))
  have hnew : (PageSize.new (ofNat pageSize.get).toNat).isSome := by
    rw [hget, PageSize.new, dif_pos pageSize.valid]
    rfl
  unfold prepareWalHeader at hprepared
  split at hprepared
  · cases hprepared
  · rw [Option.some.injEq] at hprepared
    subst hprepared
    constructor
    · dsimp only
      split_ifs with hzero
      all_goals first | exact hnew | exact hsize.resolve_left hzero
    · refine (checksumWal_asBytes bigEndian _ ?_).symm
      split_ifs <;> rfl

section Frame
variable (header : WalHeader) (logged : LoggedPage) (sums : Checksum)

theorem length_frameBytes :
    (frameBytes header logged sums).length = walFrameHeaderSize + logged.page.length := by
  simp only [frameBytes, length_append, length_u32Bytes, walFrameHeaderSize]

@[simp] theorem pageNumber_frameBytes :
    pageNumber (frameBytes header logged sums) = logged.pageNumber := by
  simp [pageNumber, frameBytes, append_assoc]

@[simp] theorem dbSize_frameBytes : dbSize (frameBytes header logged sums) = logged.dbSize := by
  simp [dbSize, frameBytes, append_assoc, u32At_append_of_le]

@[simp] theorem salts_frameBytes :
    salts (frameBytes header logged sums) = (header.salt1, header.salt2) := by
  simp [salts, frameBytes, append_assoc, u32At_append_of_le]

@[simp] theorem storedChecksum_frameBytes :
    storedChecksum (frameBytes header logged sums) = sums := by
  simp [storedChecksum, frameBytes, append_assoc, u32At_append_of_le]

/-- The checksum of a frame does not cover the bytes it is stored in. -/
theorem frameChecksum_frameBytes (bigEndian native : Bool) (prev sums' : Checksum) :
    frameChecksum bigEndian native prev (frameBytes header logged sums) =
      frameChecksum bigEndian native prev (frameBytes header logged sums') := by
  have htake : ∀ sums : Checksum, (frameBytes header logged sums).take 8 =
      u32Bytes logged.pageNumber ++ u32Bytes logged.dbSize := fun _ => rfl
  have hp : ∀ sums : Checksum, pageOf (frameBytes header logged sums) = logged.page := fun _ => rfl
  simp only [frameChecksum, htake, hp]

end Frame

/-! ## Frames that chain -/

/-- A frame carries the salts of the log and the checksum that continues `prev`. -/
structure Chains (bigEndian : Bool) (header : WalHeader) (prev : Checksum)
    (frame : List UInt8) : Prop where
  salts_eq : salts frame = (header.salt1, header.salt2)
  checksum_eq : frameChecksum bigEndian (header.useNative bigEndian) prev frame =
    storedChecksum frame

/-- Every frame of a list chains to the one before it, the first to `prev`. -/
def ChainsFrom (bigEndian : Bool) (header : WalHeader) :
    Checksum → List (List UInt8) → Prop
  | _, [] => True
  | prev, frame :: rest =>
    Chains bigEndian header prev frame ∧
      ChainsFrom bigEndian header (storedChecksum frame) rest

theorem prepareWalFrame_chains (bigEndian : Bool) (header : WalHeader) (prev : Checksum)
    (logged : LoggedPage) :
    Chains bigEndian header prev (prepareWalFrame bigEndian header prev logged).2 := by
  constructor
  · exact salts_frameBytes ..
  · exact (frameChecksum_frameBytes ..).trans (storedChecksum_frameBytes ..).symm

/-- The frames of a writer chain. -/
theorem prepareFrames_chainsFrom (bigEndian : Bool) (header : WalHeader) (prev : Checksum)
    (pages : List LoggedPage) :
    ChainsFrom bigEndian header prev (prepareFrames bigEndian header prev pages) := by
  induction pages generalizing prev with
  | nil => trivial
  | cons logged rest ih =>
    refine ⟨prepareWalFrame_chains .., ?_⟩
    have hstored : storedChecksum (prepareWalFrame bigEndian header prev logged).2 =
        (prepareWalFrame bigEndian header prev logged).1 := storedChecksum_frameBytes ..
    rw [hstored]
    exact ih _

end Turso.Wal
