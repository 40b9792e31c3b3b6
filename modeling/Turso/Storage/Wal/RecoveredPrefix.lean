import Mathlib.Data.List.Induction
import Turso.Storage.Wal.Recovery

/-!
# Recovery reads back the committed prefix

`Recovered` says what the reader has built up after a number of frames: those up to the last
commit frame are in the frame cache, those after it are pending.  A frame without a database
size only extends the pending ones (`Recovered.accept`); a commit frame moves all of them over
(`Recovered.commit`).  With the scan of `Recovery.lean` this gives the state after the longest
prefix the reader accepts, for any file and any size of the chunks.
-/

namespace Turso.Wal

open List BlockScan

variable {frames : List (List UInt8)} {frame : List UInt8} {bigEndian : Bool}
  {pages : List LoggedPage}

/-! ## The frames of a page -/

/-- The numbers of the frames that hold `page`, where the first frame has number `start`. -/
def positions (page : ℕ) : ℕ → List (List UInt8) → List ℕ
  | _, [] => []
  | start, frame :: rest =>
    if (pageNumber frame).toNat = page then start :: positions page (start + 1) rest
    else positions page (start + 1) rest

theorem positions_append (page start : ℕ) (first second : List (List UInt8)) :
    positions page start (first ++ second) =
      positions page start first ++ positions page (start + first.length) second := by
  induction first generalizing start with
  | nil => rfl
  | cons frame rest ih =>
    have hstart : start + 1 + rest.length = start + (rest.length + 1) := by omega
    simp only [cons_append, positions, ih, length_cons, hstart]
    split <;> rfl

theorem mem_positions {page start number : ℕ} : number ∈ positions page start frames ↔
      start ≤ number ∧ ∃ frame, frames[number - start]? = some frame ∧
        (pageNumber frame).toNat = page := by
  induction frames generalizing start with
  | nil => simp [positions]
  | cons frame rest ih =>
    have hrest : number ∈ positions page (start + 1) rest ↔ start < number ∧
        ∃ x, (frame :: rest)[number - start]? = some x ∧ (pageNumber x).toNat = page := by
      rw [ih]
      refine and_congr_right fun hlt => ?_
      have hi : number - start = number - (start + 1) + 1 := by omega
      rw [hi, getElem?_cons_succ]
    rcases Nat.lt_trichotomy start number with hlt | rfl | hlt
    · have hne : number ≠ start := by omega
      simp only [positions]
      split <;> simp [hrest, hlt, hlt.le, hne]
    · simp only [positions]
      split <;> simp_all
    · have hne : number ≠ start := by omega
      simp only [positions]
      split <;> simp [hrest, hlt.not_gt, hlt.not_ge, hne]

theorem positions_pairwise (page start : ℕ) (frames : List (List UInt8)) :
    (positions page start frames).Pairwise (· < ·) := by
  induction frames generalizing start with
  | nil => exact .nil
  | cons frame rest ih =>
    rw [positions]
    split
    · exact pairwise_cons.2 ⟨fun number hnumber => (mem_positions.1 hnumber).1, ih _⟩
    · exact ih _

theorem positions_lt {page start number : ℕ} (hnumber : number ∈ positions page start frames) :
    number < start + frames.length := by
  obtain ⟨hle, frame, hframe, -⟩ := mem_positions.1 hnumber
  have := (List.getElem?_eq_some_iff.1 hframe).1
  omega

/-! ## What the reader has built up -/

variable (header : WalHeader)

/-- The running checksum after some frames. -/
def checksumAfter (frames : List (List UInt8)) : Checksum :=
  (frames.getLast?.map storedChecksum).getD header.checksum

@[simp] theorem checksumAfter_concat (frames : List (List UInt8)) (frame : List UInt8) :
    checksumAfter header (frames ++ [frame]) = storedChecksum frame := by
  simp [checksumAfter]

/-- The reader after the frames `committed ++ pending`, of which `committed` ends with the
last commit frame. -/
structure Recovered (committed pending : List (List UInt8)) (loading : Loading) : Prop where
  frameIdx_eq : loading.state.frameIdx = committed.length + pending.length + 1
  cumulative_eq : loading.state.cumulativeChecksum = checksumAfter header (committed ++ pending)
  lastValidFrame_eq : loading.state.lastValidFrame = committed.length
  lastValidChecksum_eq : loading.state.lastValidChecksum = checksumAfter header committed
  cache_eq : ∀ page, loading.shared.frameCache page = positions page 1 committed
  pending_eq : ∀ page,
    loading.state.pendingFrames page = positions page (committed.length + 1) pending
  commit_last : ∀ last ∈ committed.getLast?, dbSize last ≠ 0
  pending_dbSize : ∀ frame ∈ pending, dbSize frame = 0

section Step
variable {header : WalHeader} {committed pending : List (List UInt8)} {loading : Loading}

section
variable (h : Recovered header committed pending loading)
include h

/-- The pending frames of a page, with a further frame pushed. -/
theorem Recovered.push (frame : List UInt8) (page : ℕ) :
    Function.update loading.state.pendingFrames (pageNumber frame).toNat
        (loading.state.pendingFrames (pageNumber frame).toNat ++ [loading.state.frameIdx]) page =
      positions page (committed.length + 1) (pending ++ [frame]) := by
  have hidx : loading.state.frameIdx = committed.length + 1 + pending.length := by
    rw [h.frameIdx_eq]
    omega
  rw [positions_append]
  by_cases hpage : page = (pageNumber frame).toNat
  · subst hpage
    rw [Function.update_self, h.pending_eq, hidx]
    simp [positions]
  · rw [Function.update_of_ne hpage, h.pending_eq]
    simp [positions, Ne.symm hpage]

theorem Recovered.accept (hsize : dbSize frame = 0) :
    Recovered header committed (pending ++ [frame])
      (acceptFrame loading frame (storedChecksum frame)) := by
  have hno : ¬ 0 < dbSize frame := by simp [hsize]
  rw [acceptFrame]
  rw [if_neg hno]
  refine ⟨?_, ?_, h.lastValidFrame_eq, h.lastValidChecksum_eq, h.cache_eq, h.push frame,
    h.commit_last, ?_⟩
  · simp only [h.frameIdx_eq, length_append, length_singleton]
    omega
  · rw [← append_assoc, checksumAfter_concat]
  · exact forall_mem_append.2 ⟨h.pending_dbSize, forall_mem_singleton.2 hsize⟩

theorem Recovered.commit (hsize : dbSize frame ≠ 0) :
    Recovered header (committed ++ (pending ++ [frame])) []
      (acceptFrame loading frame (storedChecksum frame)) := by
  have hyes : 0 < dbSize frame := UInt32.pos_iff_ne_zero.2 hsize
  have hlen : loading.state.frameIdx = (committed ++ (pending ++ [frame])).length := by
    simp only [h.frameIdx_eq, length_append, length_singleton]
    omega
  rw [acceptFrame]
  rw [if_pos hyes, flushPendingFrames]
  refine ⟨?_, ?_, hlen, ?_, ?_, fun _ => rfl, ?_, by simp⟩
  · simp only [hlen, length_nil, Nat.add_zero]
  · rw [append_nil, ← append_assoc, checksumAfter_concat]
  · rw [← append_assoc, checksumAfter_concat]
  · intro p
    -- every pending frame is at most the commit frame, so none is filtered out
    have hall : ∀ number ∈ positions p (committed.length + 1) (pending ++ [frame]),
        decide (number ≤ loading.state.frameIdx) = true := by
      intro number hnumber
      have := positions_lt hnumber
      rw [hlen, length_append]
      simp only [decide_eq_true_eq]
      omega
    dsimp only
    rw [h.push frame p, filter_eq_self.2 hall, h.cache_eq,
      positions_append p 1 committed, Nat.add_comm 1]
  · intro last hlast
    rw [← append_assoc, getLast?_concat] at hlast
    rwa [← Option.mem_some_iff.1 hlast]

end

end Step

/-! ## Whole files -/

/-- The reader after a valid header. -/
def headerLoaded (bigEndian : Bool) (header : WalHeader) : Loading where
  state :=
    { pageSize := header.pageSize.toNat
      useNativeEndian := header.useNative bigEndian
      cumulativeChecksum := header.checksum
      lastValidChecksum := header.checksum
      headerValid := true }
  shared := { walHeader := header }

variable {header : WalHeader}

theorem handleHeaderRead_of_valid (hvalid : header.Valid bigEndian)
    (shared : WalFileShared) (hshared : shared = { walHeader := WalHeader.new bigEndian }) :
    handleHeaderRead bigEndian header.toBytes { shared := shared } =
      { toLoading := headerLoaded bigEndian header, off := walHeaderSize, done := false } := by
  have hread : WalHeader.ofBytes header.toBytes = header := by
    simpa using header.ofBytes_toBytes []
  have hbytes : header.toBytes.take 24 = header.checkedBytes := rfl
  have hsize : ¬ (PageSize.new header.pageSize.toNat).isNone := by
    simp [Option.isSome_iff_ne_none.1 hvalid.pageSize_valid]
  subst hshared
  simp only [handleHeaderRead, hread, hbytes]
  rw [if_neg (not_or.2 ⟨hsize, not_not.2 hvalid.checksum_eq⟩)]
  rfl

variable (base : ℕ)

/-- Recovery of a file with a valid header is one scan of the whole frames after it. -/
theorem buildSharedWal_eq_scan (hvalid : header.Valid bigEndian) (body : List UInt8) :
    buildSharedWal bigEndian base (header.toBytes ++ body) =
      (scan (processFrame bigEndian) (blocks header.frameSize body)
        (headerLoaded bigEndian header)).2.finalize := by
  have hlen : ¬ (header.toBytes ++ body).length < walHeaderSize := by
    rw [length_append, header.length_toBytes]
    omega
  have htake : (header.toBytes ++ body).take walHeaderSize = header.toBytes := by
    rw [← header.length_toBytes, take_left]
  have hdrop : (header.toBytes ++ body).drop walHeaderSize = body := by
    rw [← header.length_toBytes, drop_left]
  rw [buildSharedWal]
  rw [if_neg hlen, htake, handleHeaderRead_of_valid hvalid _ rfl,
    chunkLoop_eq_scan bigEndian base _ _ _ rfl rfl (by dsimp only; omega)]
  rfl

/-- The frames that the reader accepts: they chain, and none is for page 0. -/
def Readable (bigEndian : Bool) (header : WalHeader) (frames : List (List UInt8)) : Prop :=
  ChainsFrom bigEndian header header.checksum frames ∧ ∀ frame ∈ frames, pageNumber frame ≠ 0

theorem chainsFrom_concat {prev : Checksum} :
    ChainsFrom bigEndian header prev (frames ++ [frame]) ↔ ChainsFrom bigEndian header prev frames ∧
        Chains bigEndian header ((frames.getLast?.map storedChecksum).getD prev) frame := by
  induction frames generalizing prev with
  | nil => simp [ChainsFrom]
  | cons a rest ih =>
    have hlast : (((a :: rest).getLast?).map storedChecksum).getD prev =
        ((rest.getLast?).map storedChecksum).getD (storedChecksum a) := by
      cases rest with
      | nil => rfl
      | cons b rest =>
        rfl
    rw [cons_append, ChainsFrom, ChainsFrom, ih, hlast, and_assoc]

theorem readable_concat : Readable bigEndian header (frames ++ [frame]) ↔
      Readable bigEndian header frames ∧ pageNumber frame ≠ 0 ∧
        Chains bigEndian header (checksumAfter header frames) frame := by
  simp only [Readable, chainsFrom_concat, checksumAfter, mem_append, mem_singleton,
    or_imp, forall_and, forall_eq]
  tauto

theorem Readable.of_append (first second : List (List UInt8))
    (h : Readable bigEndian header (first ++ second)) : Readable bigEndian header first := by
  induction second using reverseRecOn with
  | nil => simpa using h
  | append_singleton second frame ih =>
    rw [← append_assoc] at h
    exact ih (readable_concat.1 h).1

theorem processFrame_ne_none {loading : Loading}
    (hlog : (headerLoaded bigEndian header).SameLog loading) (hp : pageNumber frame ≠ 0)
    (hchains : Chains bigEndian header loading.state.cumulativeChecksum frame) :
    processFrame bigEndian loading frame ≠ none := by
  have hheader : loading.shared.walHeader = header := hlog.walHeader_eq
  have hnative : loading.state.useNativeEndian = header.useNative bigEndian :=
    hlog.useNativeEndian_eq
  simp only [processFrame, hheader, hnative]
  rw [if_neg hp, if_neg (not_not.2 hchains.salts_eq), if_neg (not_not.2 hchains.checksum_eq)]
  exact Option.some_ne_none _

/-- The state of the reader after the frames `seen`. -/
def Scanned (bigEndian : Bool) (header : WalHeader) (seen : List (List UInt8))
    (loading : Loading) : Prop :=
  (headerLoaded bigEndian header).SameLog loading ∧ Readable bigEndian header seen ∧
    ∃ committed pending, seen = committed ++ pending ∧ Recovered header committed pending loading

theorem Scanned.step {seen : List (List UInt8)} {loading next : Loading}
    (h : Scanned bigEndian header seen loading)
    (hframe : processFrame bigEndian loading frame = some next) :
    Scanned bigEndian header (seen ++ [frame]) next := by
  obtain ⟨hlog, hreadable, committed, pending, rfl, hrecovered⟩ := h
  obtain ⟨hp, hsalts, hsums, rfl⟩ := processFrame_eq_some hframe
  have hheader : loading.shared.walHeader = header := hlog.walHeader_eq
  have hnative : loading.state.useNativeEndian = header.useNative bigEndian :=
    hlog.useNativeEndian_eq
  rw [hheader] at hsalts
  rw [hnative, hrecovered.cumulative_eq] at hsums
  have hstep := acceptFrame_sameLog loading frame (storedChecksum frame)
  refine ⟨⟨hstep.1.trans hlog.1, hstep.2.trans hlog.2, hstep.3.trans hlog.3,
    hstep.4.trans hlog.4⟩, readable_concat.2 ⟨hreadable, hp, hsalts, hsums⟩, ?_⟩
  by_cases hsize : dbSize frame = 0
  · exact ⟨committed, pending ++ [frame], append_assoc .., hrecovered.accept hsize⟩
  · exact ⟨committed ++ (pending ++ [frame]), [], by simp, hrecovered.commit hsize⟩

/-- A whole scan: the reader stops exactly at the end of the longest readable prefix. -/
theorem scan_scanned (bigEndian : Bool) (header : WalHeader) (frames : List (List UInt8)) :
    ∃ n, IsLongestPrefix (Readable bigEndian header) frames n ∧
      Scanned bigEndian header (frames.take n)
        (scan (processFrame bigEndian) frames (headerLoaded bigEndian header)).2 := by
  have hscanned := @scan_induction _ _ (processFrame bigEndian) (headerLoaded bigEndian header)
    (Scanned bigEndian header) [] frames
    ⟨⟨rfl, rfl, rfl, rfl⟩, ⟨trivial, by simp⟩, [], [], rfl,
      ⟨rfl, rfl, rfl, rfl, fun _ => rfl, fun _ => rfl, by simp, by simp⟩⟩
    fun _ _ _ _ h hframe => h.step hframe
  rw [nil_append] at hscanned
  refine ⟨_, .of_stop Readable.of_append (scan_le_length _ _) hscanned.2.1 ?_, hscanned⟩
  intro hlt hlonger
  obtain ⟨hlog, -, committed, pending, hseen, hrecovered⟩ := hscanned
  obtain ⟨-, hpage, hchains⟩ := readable_concat.1 hlonger
  rw [hseen, ← hrecovered.cumulative_eq] at hchains
  exact processFrame_ne_none hlog hpage hchains (scan_stop hlt)

/-! ## The committed prefix -/

/-- The shared state shows exactly the committed frames of the valid frames `valid`: those up
to the last one that carries a database size. -/
def ReadsBack (valid : List (List UInt8)) (shared : WalFileShared) : Prop :=
  ∃ committed uncommitted, valid = committed ++ uncommitted ∧
    (∀ last ∈ committed.getLast?, dbSize last ≠ 0) ∧
    (∀ frame ∈ uncommitted, dbSize frame = 0) ∧
    shared.maxFrame = committed.length ∧
    (∀ page, (shared.frameCache page).Pairwise (· < ·) ∧
      ∀ number, number ∈ shared.frameCache page ↔
        1 ≤ number ∧ ∃ frame, committed[number - 1]? = some frame ∧
          (pageNumber frame).toNat = page) ∧
    ∀ last ∈ committed.getLast?, shared.lastChecksum = storedChecksum last

section
variable {committed pending : List (List UInt8)} {loading : Loading}
  (h : Recovered header committed pending loading)
include h

theorem Recovered.finalize_frameCache (p : ℕ) :
    loading.finalize.frameCache p = positions p 1 committed := by
  have hall : ∀ number ∈ positions p 1 committed,
      decide (number ≤ committed.length) = true := by
    intro number hnumber
    have := positions_lt hnumber
    simp only [decide_eq_true_eq]
    omega
  simp only [Loading.finalize, h.lastValidFrame_eq]
  split
  · dsimp only
    rw [h.cache_eq, filter_eq_self.2 hall]
  · exact h.cache_eq p

theorem Recovered.readsBack : ReadsBack (committed ++ pending) loading.finalize := by
  refine ⟨committed, pending, rfl, h.commit_last, h.pending_dbSize, h.lastValidFrame_eq, ?_, ?_⟩
  · intro p
    rw [h.finalize_frameCache]
    exact ⟨positions_pairwise p 1 committed, fun _ => mem_positions⟩
  · intro last hlast
    refine h.lastValidChecksum_eq.trans ?_
    rw [checksumAfter, Option.mem_def.1 hlast]
    rfl

end

/-- Recovery of any file with a valid header. -/
theorem buildSharedWal_readsBack (hvalid : header.Valid bigEndian) (body : List UInt8) :
    ∃ n, IsLongestPrefix (Readable bigEndian header) (blocks header.frameSize body) n ∧
      ReadsBack ((blocks header.frameSize body).take n)
        (buildSharedWal bigEndian base (header.toBytes ++ body)) ∧
      ((buildSharedWal bigEndian base (header.toBytes ++ body)).maxFrame = 0 →
        (buildSharedWal bigEndian base (header.toBytes ++ body)).lastChecksum =
          header.checksum) := by
  obtain ⟨n, hlongest, -, -, committed, pending, hseen, hrecovered⟩ :=
    scan_scanned bigEndian header (blocks header.frameSize body)
  rw [buildSharedWal_eq_scan base hvalid]
  refine ⟨n, hlongest, hseen ▸ hrecovered.readsBack, fun hzero => ?_⟩
  have hnil : committed = [] := length_eq_zero_iff.1 (hrecovered.lastValidFrame_eq.symm.trans hzero)
  refine hrecovered.lastValidChecksum_eq.trans ?_
  rw [hnil]
  rfl

theorem length_prepareFrames {prev : Checksum}
    (hpages : ∀ logged ∈ pages, logged.page.length = header.pageSize.toNat) :
    ∀ frame ∈ prepareFrames bigEndian header prev pages, frame.length = header.frameSize := by
  induction pages generalizing prev with
  | nil => simp [prepareFrames]
  | cons logged rest ih =>
    refine forall_mem_cons.2 ⟨?_, ih fun x hx => hpages x (by simp [hx])⟩
    exact (length_frameBytes ..).trans (by rw [hpages logged mem_cons_self]; rfl)

theorem prepareFrames_take (bigEndian : Bool) (header : WalHeader) (prev : Checksum)
    (pages : List LoggedPage) (n : ℕ) :
    (prepareFrames bigEndian header prev pages).take n =
      prepareFrames bigEndian header prev (pages.take n) := by
  induction pages generalizing prev n with
  | nil => simp [prepareFrames]
  | cons logged rest ih =>
    cases n with
    | zero => simp [prepareFrames]
    | succ n => simp [prepareFrames, ih]

theorem prepareFrames_readable
    (hpages : ∀ logged ∈ pages, logged.pageNumber ≠ 0) :
    Readable bigEndian header (prepareFrames bigEndian header header.checksum pages) := by
  refine ⟨prepareFrames_chainsFrom .., ?_⟩
  generalize header.checksum = prev
  induction pages generalizing prev with
  | nil => simp [prepareFrames]
  | cons logged rest ih =>
    refine forall_mem_cons.2 ⟨?_, ih (fun x hx => hpages x (by simp [hx])) _⟩
    rw [prepareWalFrame, pageNumber_frameBytes]
    exact hpages logged mem_cons_self

@[simp] theorem prepareFrames_length (bigEndian : Bool) (header : WalHeader) (prev : Checksum)
    (pages : List LoggedPage) :
    (prepareFrames bigEndian header prev pages).length = pages.length := by
  induction pages generalizing prev with
  | nil => rfl
  | cons logged rest ih => simp [prepareFrames, ih]

/-- The frames of a file that was written and then cut. -/
theorem blocks_written
    (hpages : ∀ logged ∈ pages, logged.page.length = header.pageSize.toNat) (tail : List UInt8)
    {n cut : ℕ} (hn : n ≤ pages.length) (hcut : n * header.frameSize ≤ cut) :
    (blocks header.frameSize
      (((prepareFrames bigEndian header header.checksum pages).flatten ++ tail).take cut)).take
        n = prepareFrames bigEndian header header.checksum (pages.take n) := by
  have hpos : 0 < header.frameSize := Nat.add_pos_left (by decide) _
  have hwhole : n ≤ cut / header.frameSize := (Nat.le_div_iff_mul_le hpos).2 hcut
  rw [blocks_take, blocks_flatten hpos (length_prepareFrames hpages), take_take,
    min_eq_left hwhole, take_append_of_le_length (by simpa using hn),
    prepareFrames_take]

/-- **Recovery reads back the committed prefix.**  A log is written, cut at any byte and
followed by any bytes.  Whatever the size of the chunks, recovery shows exactly the committed
frames of the longest readable prefix, and every written frame the cut left whole is in that
prefix, up to the first one for page 0. -/
theorem recovery_reads_committed_prefix {bigEndian : Bool} (base : ℕ) {header : WalHeader}
    (hvalid : header.Valid bigEndian) {pages : List LoggedPage}
    (hpages : ∀ logged ∈ pages, logged.page.length = header.pageSize.toNat)
    (tail : List UInt8) (cut : ℕ) :
    let written := prepareFrames bigEndian header header.checksum pages
    let image := (header.toBytes ++ (written.flatten ++ tail)).take cut
    let frames := blocks header.frameSize (image.drop walHeaderSize)
    let shared := buildSharedWal bigEndian base image
    ∃ count, IsLongestPrefix (Readable bigEndian header) frames count ∧
      ReadsBack (frames.take count) shared ∧
      (walHeaderSize ≤ image.length → shared.maxFrame = 0 → shared.lastChecksum = header.checksum) ∧
      ∀ whole ≤ pages.length, (∀ logged ∈ pages.take whole, logged.pageNumber ≠ 0) →
        walHeaderSize + whole * header.frameSize ≤ cut →
          whole ≤ count ∧ frames.take whole = written.take whole := by
  intro written image frames shared
  rcases Nat.lt_or_ge cut walHeaderSize with hshort | hlong
  · -- not even the header is left
    have hlength : image.length < walHeaderSize := lt_of_le_of_lt (length_take_le _ _) hshort
    have hframes : frames = [] := by
      simp only [frames, drop_eq_nil_of_le hlength.le, blocks_nil]
    refine ⟨0, ?_, ?_, fun hle => absurd hlength hle.not_gt, fun whole _ _ hcut => by omega⟩
    · rw [hframes]
      exact ⟨le_rfl, ⟨trivial, by simp⟩, fun other hother _ => hother⟩
    · simp only [hframes, shared, buildSharedWal, if_pos hlength]
      exact ⟨[], [], rfl, by simp, by simp, rfl, by simp, by simp⟩
  · have himage : image =
        header.toBytes ++ (written.flatten ++ tail).take (cut - walHeaderSize) := by
      simp only [image, take_append, header.length_toBytes]
      rw [take_of_length_le (by rw [header.length_toBytes]; exact hlong)]
    have hframes : frames =
        blocks header.frameSize ((written.flatten ++ tail).take (cut - walHeaderSize)) := by
      simp only [frames, himage]
      rw [← header.length_toBytes, drop_left]
    obtain ⟨count, hlongest, hreads, hchecksum⟩ := buildSharedWal_readsBack base hvalid
      ((written.flatten ++ tail).take (cut - walHeaderSize))
    rw [← hframes] at hlongest hreads
    rw [← himage] at hreads hchecksum
    refine ⟨count, hlongest, hreads, fun _ => hchecksum, fun whole hwhole hnonzero hcut => ?_⟩
    have htake : frames.take whole =
        prepareFrames bigEndian header header.checksum (pages.take whole) := by
      rw [hframes]
      exact blocks_written hpages tail hwhole (by omega)
    refine ⟨hlongest.maximal whole ?_ ?_, by rw [htake, prepareFrames_take]⟩
    · have := congrArg length htake
      rw [length_take, prepareFrames_length, length_take_of_le hwhole] at this
      omega
    · rw [htake]
      exact prepareFrames_readable hnonzero

/-- A header for pages of 512 bytes. -/
def smallHeader : WalHeader :=
  ⟨0x377f0682, 3007000, 512, 0, 1, 2, 3586851603, 2409945784⟩

theorem smallHeader_valid : smallHeader.Valid false :=
  prepareWalHeader_valid (.inl rfl)
    (show prepareWalHeader false false (1, 2) ⟨512, by decide⟩ (.new false) = some smallHeader by
      decide)

/-- One committed page, then three bytes of a torn frame. -/
theorem recovery_reads_committed_prefix_onePage :
    let pages : List LoggedPage := [⟨2, 2, replicate 512 7⟩]
    let written := prepareFrames false smallHeader smallHeader.checksum pages
    let image := (smallHeader.toBytes ++ (written.flatten ++ [1, 2, 3])).take 1000
    let frames := blocks smallHeader.frameSize (image.drop walHeaderSize)
    smallHeader.Valid false ∧ ∃ count, 1 ≤ count ∧
      ReadsBack (frames.take count) (buildSharedWal false (16 * 1024 * 1024) image) := by
  intro pages written image frames
  have hpages : ∀ logged ∈ pages, logged.page.length = smallHeader.pageSize.toNat := by
    intro logged hlogged
    rw [mem_singleton.1 hlogged]
    exact length_replicate
  have hnonzero : ∀ logged ∈ pages.take 1, logged.pageNumber ≠ 0 := by
    intro logged hlogged
    rw [mem_singleton.1 hlogged]
    exact (by decide : (2 : UInt32) ≠ 0)
  obtain ⟨count, -, hreads, -, hwhole⟩ := recovery_reads_committed_prefix (16 * 1024 * 1024)
    smallHeader_valid hpages [1, 2, 3] 1000
  exact ⟨smallHeader_valid, count, (hwhole 1 le_rfl hnonzero (by decide)).1, hreads⟩

/-- A commit frame for page 0, with the right salts and checksum. -/
def pageZeroFrame : List UInt8 :=
  (prepareWalFrame false smallHeader smallHeader.checksum ⟨0, 1, replicate 512 0⟩).2

theorem blocks_pageZeroFrame : blocks smallHeader.frameSize pageZeroFrame = [pageZeroFrame] := by
  have hlen : pageZeroFrame.length = smallHeader.frameSize :=
    (length_frameBytes ..).trans (by rw [length_replicate]; rfl)
  have := @blocks_flatten UInt8 smallHeader.frameSize (by decide) [pageZeroFrame]
    (by simpa using hlen) []
  simpa using this

/-- The reader stops at a frame for page 0 even if its salts match and its checksum chains. -/
theorem maxFrame_pageZeroFrame :
    (buildSharedWal false base (smallHeader.toBytes ++ pageZeroFrame)).maxFrame = 0 := by
  have hstop : processFrame false (headerLoaded false smallHeader) pageZeroFrame = none := by
    have hp : pageNumber pageZeroFrame = 0 := pageNumber_frameBytes ..
    rw [processFrame]
    rw [if_pos hp]
  rw [buildSharedWal_eq_scan base smallHeader_valid, blocks_pageZeroFrame, scan_cons_none _ hstop]
  rfl

/-- So the committed frames of the longest prefix of frames that chain are not always read
back: a file can hold one for page 0. -/
theorem recovery_misses_page_zero :
    ¬ ∃ count, IsLongestPrefix (ChainsFrom false smallHeader smallHeader.checksum)
        (blocks smallHeader.frameSize pageZeroFrame) count ∧
      ReadsBack ((blocks smallHeader.frameSize pageZeroFrame).take count)
        (buildSharedWal false (16 * 1024 * 1024) (smallHeader.toBytes ++ pageZeroFrame)) := by
  rintro ⟨count, hlongest, committed, uncommitted, hvalid, -, huncommitted, hmax, -⟩
  rw [blocks_pageZeroFrame] at hlongest hvalid
  have hcount : 1 ≤ count := hlongest.maximal 1 le_rfl ⟨prepareWalFrame_chains .., trivial⟩
  rw [take_of_length_le hcount] at hvalid
  have hnil : committed = [] := by
    rw [maxFrame_pageZeroFrame] at hmax
    exact length_eq_zero_iff.1 hmax.symm
  rw [hnil, nil_append] at hvalid
  have hzero : dbSize pageZeroFrame = 0 :=
    huncommitted pageZeroFrame (by rw [← hvalid]; exact mem_singleton_self _)
  have hone : dbSize pageZeroFrame = 1 := dbSize_frameBytes ..
  exact absurd hzero (by decide)

end Turso.Wal
