import Turso.Foundation.BlockScan
import Turso.Storage.Wal.Format

/-!
# Reading the log back

The model of `StreamingWalReader` and of `BuildSharedWal`, its driver
(`core/storage/sqlite3_ondisk.rs`).  The file is read in chunks of whole frames.  A frame
is kept in `pendingFrames` until a commit frame is met; only then does it enter the frame
cache that readers use.

Every read is assumed to return the bytes it asks for.  `base` is the constant `BASE` of
`submit_one_chunk`, which bounds the size of a chunk.  Left out are the fields of
`WalFileShared` that recovery only initialises, and the two that serve the shared-memory
index (`frame_cache_high_water`, `overflow_fallback_coverage`).
-/

namespace Turso.Wal

open List BlockScan

variable {frameSize n base : ℕ} {bigEndian : Bool}

/-- `StreamingState`. -/
structure StreamingState where
  frameIdx : ℕ := 1
  cumulativeChecksum : Checksum := (0, 0)
  lastValidChecksum : Checksum := (0, 0)
  lastValidFrame : ℕ := 0
  pendingFrames : ℕ → List ℕ := fun _ => []
  pageSize : ℕ := 0
  useNativeEndian : Bool := false
  headerValid : Bool := false

/-- `WalFileShared`. -/
structure WalFileShared where
  walHeader : WalHeader
  frameCache : ℕ → List ℕ := fun _ => []
  maxFrame : ℕ := 0
  nbackfills : ℕ := 0
  lastChecksum : Checksum := (0, 0)
  loaded : Bool := false
  initialized : Bool := false

/-- What `process_frames` works on: the state of the reader and the shared state it fills in. -/
structure Loading where
  state : StreamingState := {}
  shared : WalFileShared

/-- `StreamingWalReader`. -/
structure StreamingWalReader extends Loading where
  off : ℕ := 0
  done : Bool := false

/-- `WalHeader::new`, which is also the default. -/
def WalHeader.new (bigEndian : Bool) : WalHeader :=
  ⟨walMagic bigEndian, 3007000, 0, 0, 0, 0, 0, 0⟩

/-- The shared state that `finalize_loading` leaves. -/
def Loading.finalize (loading : Loading) : WalFileShared :=
  let maxFrame := loading.state.lastValidFrame
  { loading.shared with
    frameCache :=
      if 0 < maxFrame then fun page => (loading.shared.frameCache page).filter (· ≤ maxFrame)
      else loading.shared.frameCache
    maxFrame
    lastChecksum := loading.state.lastValidChecksum
    initialized := loading.state.headerValid || loading.shared.initialized
    nbackfills := 0
    loaded := true }

variable (reader : StreamingWalReader)

/-- `finalize_loading`. -/
def finalizeLoading : StreamingWalReader :=
  { reader with shared := reader.toLoading.finalize, done := true }

/-- `handle_header_read`, for a read of all 32 bytes. -/
def handleHeaderRead (bigEndian : Bool) (bytes : List UInt8) (reader : StreamingWalReader) :
    StreamingWalReader :=
  let header := WalHeader.ofBytes bytes
  let native := header.useNative bigEndian
  let computed := checksumWal bigEndian native (bytes.take 24) (0, 0)
  if (PageSize.new header.pageSize.toNat).isNone ∨ computed ≠ header.checksum then
    finalizeLoading
      { reader with shared := { reader.shared with walHeader := WalHeader.new bigEndian } }
  else
    { reader with
      shared := { reader.shared with walHeader := header }
      state :=
        { reader.state with
          pageSize := header.pageSize.toNat
          useNativeEndian := native
          cumulativeChecksum := header.checksum
          lastValidChecksum := header.checksum
          headerValid := true }
      off := walHeaderSize }

/-- `flush_pending_frames`.  It is only called after a frame was pushed, so that its test
for an empty map never holds. -/
def flushPendingFrames (loading : Loading) : Loading :=
  let state := loading.state
  { loading with
    shared :=
      { loading.shared with
        frameCache := fun page => loading.shared.frameCache page ++
          (state.pendingFrames page).filter (· ≤ state.lastValidFrame)
        maxFrame := state.lastValidFrame }
    state := { state with pendingFrames := fun _ => [] } }

/-- What `process_frames` does with a frame that passed its checks. -/
def acceptFrame (loading : Loading) (frame : List UInt8) (computed : Checksum) : Loading :=
  let state := loading.state
  let page := (pageNumber frame).toNat
  let state :=
    { state with
      cumulativeChecksum := computed
      pendingFrames := Function.update state.pendingFrames page
        (state.pendingFrames page ++ [state.frameIdx]) }
  let loading :=
    if 0 < dbSize frame then
      flushPendingFrames
        { loading with
          state := { state with lastValidFrame := state.frameIdx, lastValidChecksum := computed } }
    else { loading with state }
  { loading with state := { loading.state with frameIdx := loading.state.frameIdx + 1 } }

/-- The body of the loop of `process_frames`; `none` where it breaks. -/
def processFrame (bigEndian : Bool) (loading : Loading) (frame : List UInt8) :
    Option Loading :=
  let header := loading.shared.walHeader
  if pageNumber frame = 0 then none
  else if salts frame ≠ (header.salt1, header.salt2) then none
  else
    let computed := frameChecksum bigEndian loading.state.useNativeEndian
      loading.state.cumulativeChecksum frame
    if computed ≠ storedChecksum frame then none else some (acceptFrame loading frame computed)

/-- `process_frames`: the number of bytes processed, and the new state. -/
def processFrames (bigEndian : Bool) (frameSize : ℕ) :
    ℕ → List UInt8 → Loading → ℕ × Loading
  | 0, _, loading => (0, loading)
  | fuel + 1, buf, loading =>
    if frameSize ≤ buf.length then
      match processFrame bigEndian loading (buf.take frameSize) with
      | none => (0, loading)
      | some next =>
        let result := processFrames bigEndian frameSize fuel (buf.drop frameSize) next
        (frameSize + result.1, result.2)
    else (0, loading)

/-- `handle_chunk_read`. -/
def handleChunkRead (bigEndian : Bool) (fileSize : ℕ) (buf : List UInt8)
    (reader : StreamingWalReader) : StreamingWalReader :=
  let frameSize := walFrameHeaderSize + reader.state.pageSize
  let result := processFrames bigEndian frameSize buf.length buf reader.toLoading
  let reader := { reader with toLoading := result.2, off := reader.off + result.1 }
  if result.1 < buf.length ∨ fileSize ≤ reader.off then finalizeLoading reader else reader

/-- The size of the next chunk, as `submit_one_chunk` computes it. -/
def chunkSize (base frameSize remaining : ℕ) : ℕ :=
  min (max (base / frameSize * frameSize) frameSize) remaining

/-- The phases `ChunkLoop` and `AwaitChunk` of `BuildSharedWal::poll`. -/
def chunkLoop (bigEndian : Bool) (base : ℕ) (image : List UInt8) :
    ℕ → StreamingWalReader → StreamingWalReader
  | 0, reader => reader
  | fuel + 1, reader =>
    if reader.done then reader
    else if image.length ≤ reader.off then finalizeLoading reader
    else
      let frameSize := walFrameHeaderSize + reader.state.pageSize
      let buf := (image.drop reader.off).take
        (chunkSize base frameSize (image.length - reader.off))
      let next := handleChunkRead bigEndian image.length buf reader
      -- no forward progress: the end of the valid log
      if next.off ≤ reader.off then finalizeLoading next
      else chunkLoop bigEndian base image fuel next

/-- `build_shared_wal`: `BuildSharedWal::begin`, and `poll` until it is done.  Every turn of
the loop but the last one or two moves forward, so that the fuel is enough. -/
def buildSharedWal (bigEndian : Bool) (base : ℕ) (image : List UInt8) : WalFileShared :=
  let shared : WalFileShared := { walHeader := WalHeader.new bigEndian }
  if image.length < walHeaderSize then { shared with loaded := true }
  else
    let reader := handleHeaderRead bigEndian (image.take walHeaderSize) { shared := shared }
    (chunkLoop bigEndian base image (image.length + 1) reader).shared

/-! ## The loops as one scan -/

variable {loading after : Loading}

/-- `process_frames` scans the whole frames of its buffer. -/
theorem processFrames_eq_scan (bigEndian : Bool) (hpos : 0 < frameSize) (fuel : ℕ)
    (buf : List UInt8) (loading : Loading) (hfuel : (blocks frameSize buf).length ≤ fuel) :
    processFrames bigEndian frameSize fuel buf loading =
      (frameSize * (scan (processFrame bigEndian) (blocks frameSize buf) loading).1,
        (scan (processFrame bigEndian) (blocks frameSize buf) loading).2) := by
  induction fuel generalizing buf loading with
  | zero =>
    have hnil : blocks frameSize buf = [] := length_eq_zero_iff.1 (by omega)
    rw [hnil]
    rfl
  | succ fuel ih =>
    rw [processFrames]
    by_cases hle : frameSize ≤ buf.length
    · rw [if_pos hle]
      rw [blocks_of_le hpos hle, length_cons, Nat.add_le_add_iff_right] at hfuel
      rw [blocks_of_le hpos hle]
      cases hframe : processFrame bigEndian loading (buf.take frameSize) with
      | none => rw [scan_cons_none _ hframe, Nat.mul_zero]
      | some next =>
        rw [scan_cons_some _ hframe]
        dsimp only
        rw [ih _ _ hfuel, Nat.mul_succ, Nat.add_comm]
    · rw [if_neg hle, blocks_of_lt (by omega)]
      rfl

theorem finalizeLoading_idem :
    finalizeLoading (finalizeLoading reader) = finalizeLoading reader := by
  simp only [finalizeLoading, Loading.finalize, Bool.or_self_left, StreamingWalReader.mk.injEq,
    Loading.mk.injEq, WalFileShared.mk.injEq, true_and, and_true]
  split_ifs with hpos
  · funext page
    rw [filter_filter]
    congr 1
    funext frame
    exact Bool.and_self _
  · rfl

/-- What no frame changes. -/
structure Loading.SameLog (before after : Loading) : Prop where
  pageSize_eq : after.state.pageSize = before.state.pageSize
  useNativeEndian_eq : after.state.useNativeEndian = before.state.useNativeEndian
  headerValid_eq : after.state.headerValid = before.state.headerValid
  walHeader_eq : after.shared.walHeader = before.shared.walHeader

theorem processFrame_eq_some {next : Loading} {frame : List UInt8}
    (hframe : processFrame bigEndian loading frame = some next) :
    pageNumber frame ≠ 0 ∧
      salts frame = (loading.shared.walHeader.salt1, loading.shared.walHeader.salt2) ∧
      frameChecksum bigEndian loading.state.useNativeEndian loading.state.cumulativeChecksum frame =
        storedChecksum frame ∧
      next = acceptFrame loading frame (storedChecksum frame) := by
  unfold processFrame at hframe
  dsimp only at hframe
  split_ifs at hframe with hp hsalts hsums
  rw [not_not] at hsalts hsums
  refine ⟨hp, hsalts, hsums, ?_⟩
  rw [← hsums]
  exact (Option.some.inj hframe).symm

theorem acceptFrame_sameLog (loading : Loading) (frame : List UInt8) (sums : Checksum) :
    loading.SameLog (acceptFrame loading frame sums) := by
  unfold acceptFrame flushPendingFrames
  split_ifs <;> exact ⟨rfl, rfl, rfl, rfl⟩

theorem scan_sameLog {frames : List (List UInt8)}
    (hscan : scan (processFrame bigEndian) frames loading = (n, after)) :
    loading.SameLog after := by
  have hafter : (scan (processFrame bigEndian) frames loading).2 = after := by rw [hscan]
  rw [← hafter]
  refine @scan_induction _ _ _ loading (fun _ after => loading.SameLog after) [] frames
    ⟨rfl, rfl, rfl, rfl⟩ ?_
  intro _ before frame next hbefore hframe
  obtain ⟨-, -, -, rfl⟩ := processFrame_eq_some hframe
  have hstep := acceptFrame_sameLog before frame (storedChecksum frame)
  exact ⟨hstep.1.trans hbefore.1, hstep.2.trans hbefore.2, hstep.3.trans hbefore.3,
    hstep.4.trans hbefore.4⟩

theorem handleChunkRead_eq (bigEndian : Bool) (fileSize : ℕ) (buf : List UInt8)
    (reader : StreamingWalReader) (hsize : walFrameHeaderSize + reader.state.pageSize = frameSize)
    (hscan : scan (processFrame bigEndian) (blocks frameSize buf) reader.toLoading = (n, loading)) :
    handleChunkRead bigEndian fileSize buf reader = let next : StreamingWalReader :=
        { toLoading := loading, off := reader.off + frameSize * n, done := reader.done }
      if frameSize * n < buf.length ∨ fileSize ≤ reader.off + frameSize * n then
        finalizeLoading next
      else next := by
  have hpos : 0 < frameSize := by
    rw [← hsize]
    exact Nat.add_pos_left (by decide) _
  have hfuel : (blocks frameSize buf).length ≤ buf.length := by
    rw [length_blocks]
    exact Nat.div_le_self _ _
  rw [handleChunkRead, hsize]
  simp only [processFrames_eq_scan bigEndian hpos _ buf _ hfuel, hscan]

/-- A chunk that does not reach the end of the file consists of whole frames. -/
theorem chunkSize_of_lt {remaining : ℕ} (hlt : chunkSize base frameSize remaining < remaining) :
    ∃ n, 0 < n ∧ chunkSize base frameSize remaining = n * frameSize := by
  refine ⟨max (base / frameSize) 1, by omega, ?_⟩
  rw [chunkSize] at hlt ⊢
  rw [min_eq_left (by omega), ← Nat.mul_max_mul_right, Nat.one_mul]

/-- A turn of the driver in which the reader finalizes is the last. -/
theorem chunkLoop_turn_of_final {fuel off : ℕ} {image : List UInt8} (next : StreamingWalReader) :
    (if (finalizeLoading next).off ≤ off then finalizeLoading (finalizeLoading next)
      else chunkLoop bigEndian base image fuel (finalizeLoading next)).shared =
      next.toLoading.finalize := by
  split
  · rw [finalizeLoading_idem]
    rfl
  · cases fuel <;> rfl

/-- The scan of the first chunk is the scan of the file where the reader stops.  Else it accepts
the whole chunk and the scan of the file goes on after it. -/
theorem scan_chunk {rest : List UInt8} {before : Loading} (hpos : 0 < frameSize)
    (hscan : scan (processFrame bigEndian) (blocks frameSize
      (rest.take (chunkSize base frameSize rest.length))) before = (n, after)) :
    let stops := frameSize * n < chunkSize base frameSize rest.length ∨ rest.length ≤ frameSize * n
    (scan (processFrame bigEndian) (blocks frameSize rest) before).2 = (if stops then after else
      (scan (processFrame bigEndian) (blocks frameSize (rest.drop (frameSize * n))) after).2) ∧
      (¬ stops → 0 < n) := by
  generalize hc : chunkSize base frameSize rest.length = c at hscan ⊢
  have hle : c ≤ rest.length := by
    rw [← hc]
    exact min_le_right _ _
  dsimp only
  rcases hle.eq_or_lt with rfl | hlt
  · rw [take_length] at hscan
    rw [hscan, if_pos (by omega)]
    exact ⟨rfl, by omega⟩
  · obtain ⟨frames, hframespos, hframes⟩ := chunkSize_of_lt (hc.trans_lt hlt)
    rw [hc, Nat.mul_comm] at hframes
    have hbuf : (rest.take c).length = frames * frameSize := by
      rw [length_take_of_le hle, hframes, Nat.mul_comm]
    have hblocks : (blocks frameSize (rest.take c)).length = frames := by
      rw [length_blocks, hbuf, Nat.mul_div_cancel _ hpos]
    have hn := @scan_le_length _ _ (processFrame bigEndian) (blocks frameSize (rest.take c)) before
    have hfile := @scan_append _ _ (blocks frameSize (rest.take c)) (processFrame bigEndian)
      (blocks frameSize (rest.drop c)) before
    rw [← blocks_append hpos frames hbuf, take_append_drop] at hfile
    rw [hscan, hblocks] at hn hfile
    dsimp only at hn hfile
    rw [hfile]
    rcases hn.eq_or_lt with rfl | hshort
    · rw [if_neg (lt_irrefl _), if_neg (by omega), hframes]
      exact ⟨rfl, fun _ => hframespos⟩
    · have hless := Nat.mul_lt_mul_of_pos_left hshort hpos
      rw [if_pos hshort, if_pos (by omega)]
      exact ⟨rfl, by omega⟩

/-- However the file is cut into chunks, the driver scans the whole frames of the rest of
the file and finalizes. -/
theorem chunkLoop_eq_scan (bigEndian : Bool) (base : ℕ) (image : List UInt8) (fuel : ℕ)
    (reader : StreamingWalReader) (hdone : reader.done = false)
    (hsize : walFrameHeaderSize + reader.state.pageSize = frameSize)
    (hfuel : image.length - reader.off < fuel) :
    (chunkLoop bigEndian base image fuel reader).shared =
      (scan (processFrame bigEndian) (blocks frameSize (image.drop reader.off))
        reader.toLoading).2.finalize := by
  have hpos : 0 < frameSize := by
    rw [← hsize]
    exact Nat.add_pos_left (by decide) _
  induction fuel generalizing reader with
  | zero => omega
  | succ fuel ih =>
    rw [chunkLoop, if_neg (by simp [hdone])]
    by_cases he : image.length ≤ reader.off
    · rw [if_pos he, drop_eq_nil_of_le he, blocks_nil]
      rfl
    rw [if_neg he]
    dsimp only
    rw [hsize, ← length_drop]
    obtain ⟨⟨count, loading⟩, hscan⟩ : ∃ result, scan (processFrame bigEndian)
        (blocks frameSize ((image.drop reader.off).take
          (chunkSize base frameSize (image.drop reader.off).length)))
        reader.toLoading = result := ⟨_, rfl⟩
    have hbuf : ((image.drop reader.off).take
        (chunkSize base frameSize (image.drop reader.off).length)).length =
        chunkSize base frameSize (image.drop reader.off).length :=
      length_take_of_le (min_le_right _ _)
    have hlen : (image.drop reader.off).length = image.length - reader.off := length_drop
    rw [handleChunkRead_eq bigEndian _ _ reader hsize hscan, hbuf]
    obtain ⟨hfile, hcount⟩ := scan_chunk hpos hscan
    by_cases hstop : frameSize * count < chunkSize base frameSize (image.drop reader.off).length ∨
        image.length ≤ reader.off + frameSize * count
    · rw [if_pos hstop, chunkLoop_turn_of_final, hfile, if_pos (by omega)]
    · have hforward : 0 < frameSize * count := Nat.mul_pos hpos (hcount (by omega))
      have hsame : walFrameHeaderSize + loading.state.pageSize = frameSize := by
        rw [(scan_sameLog hscan).pageSize_eq, hsize]
      rw [if_neg hstop, if_neg (by dsimp only; omega), hfile, if_neg (by omega), drop_drop]
      exact ih ⟨loading, reader.off + frameSize * count, reader.done⟩ hdone hsame
        (by dsimp only; omega)

end Turso.Wal
