import Turso.Vdbe.Sorter.Model

/-!
# Reading a chunk back

A chunk is read in pieces.  `SortedChunk.Holds` relates its state to the records that it has still to
return: those that are parsed, and those whose bytes are in the buffer or not yet read.  If every read
gets to the end of a record (`FedBy`), then `SortedChunk::next` takes the first record off this list,
and returns nothing only if the list is empty (`Readable.next`).
-/

namespace Turso.Sorter

open SortedChunk ByteBuffer List

/-! ## Parsing -/

theorem encodeRecords_cons (payload : Bytes) (payloads : List Bytes) :
    encodeRecords (payload :: payloads) = encodeRecord payload ++ encodeRecords payloads := rfl

theorem encodeRecords_append (first second : List Bytes) :
    encodeRecords (first ++ second) = encodeRecords first ++ encodeRecords second :=
  flatMap_append

theorem length_encodeRecord (payload : Bytes) :
    (encodeRecord payload).length = (writeVarint payload.length).length + payload.length :=
  length_append

theorem length_writeVarint_pos {v : ℕ} (hv : v < 2 ^ 64) : 0 < (writeVarint v).length := by
  rw [length_writeVarint hv]
  unfold varintLen
  split_ifs <;> omega

/-- The bytes do not hold the whole first record. -/
def Short (bytes : Bytes) (payloads : List Bytes) : Prop :=
  ∀ payload ∈ payloads.head?, bytes.length < (encodeRecord payload).length

/-- A buffer at the front of some records holds a number of them and a part of the next one. -/
theorem exists_split {rest : List Bytes} {buffer unread : Bytes}
    (h : encodeRecords rest = buffer ++ unread) :
    ∃ payloads left tail, rest = payloads ++ left ∧ buffer = encodeRecords payloads ++ tail ∧
      encodeRecords left = tail ++ unread ∧ Short tail left := by
  induction rest generalizing buffer with
  | nil => exact ⟨[], [], buffer, rfl, rfl, h, fun _ hno => by cases hno⟩
  | cons payload rest ih =>
    rcases Nat.lt_or_ge buffer.length (encodeRecord payload).length with hshort | hlong
    · refine ⟨[], payload :: rest, buffer, rfl, rfl, h, fun x hx => ?_⟩
      cases hx
      exact hshort
    · rw [encodeRecords_cons] at h
      obtain ⟨buffer', rfl⟩ : ∃ buffer', buffer = encodeRecord payload ++ buffer' := by
        rcases append_eq_append_iff.1 h with ⟨more, hbuffer, -⟩ | ⟨more, hrecord, hunread⟩
        · exact ⟨more, hbuffer⟩
        · rw [hrecord, length_append] at hlong
          have hnil : more = [] := length_eq_zero_iff.1 (by omega)
          exact ⟨[], by rw [hrecord, hnil, append_nil, append_nil]⟩
      rw [append_assoc, append_cancel_left_eq] at h
      obtain ⟨payloads, left, tail, rfl, rfl, hleft, hshort⟩ := ih h
      exact ⟨payload :: payloads, left, tail, rfl, by rw [encodeRecords_cons, append_assoc],
        hleft, hshort⟩

section
variable {left payloads : List Bytes} {tail unread : Bytes} {eof : Bool}
  (hleft : encodeRecords left = tail ++ unread) (hshort : Short tail left)
  (heof : eof = true → tail = [])
include hleft hshort heof

/-- A record that is not whole is left in the buffer. -/
theorem parseRecords_short (fuel : ℕ) (hsize : ∀ payload ∈ left, payload.length < 2 ^ 64) :
    parseRecords eof fuel tail = .ok ([], tail) := by
  cases fuel with
  | zero => rfl
  | succ fuel =>
    by_cases hnil : tail = []
    · rw [hnil, parseRecords, if_pos rfl]
    obtain rfl : eof = false := Bool.eq_false_iff.2 fun h => hnil (heof h)
    rw [parseRecords, if_neg hnil]
    cases left with
    | nil => exact absurd (append_eq_nil_iff.1 hleft.symm).1 hnil
    | cons payload left =>
      have hlen : tail.length < (encodeRecord payload).length := hshort payload rfl
      have hpayload := hsize payload mem_cons_self
      have htake : tail = (encodeRecord payload).take tail.length := by
        rw [encodeRecords_cons] at hleft
        have := congrArg (take tail.length) hleft
        rw [take_append_of_le_length hlen.le, take_left] at this
        exact this.symm
      rw [length_encodeRecord] at hlen
      rcases Nat.lt_or_ge tail.length (writeVarint payload.length).length with hcut | hwhole
      · -- the length itself is cut off
        rw [encodeRecord, take_append_of_le_length hcut.le] at htake
        obtain ⟨error, herror⟩ := readVarint_of_cut hpayload hcut
        rw [htake, herror]
        rfl
      · have hread : readVarint tail = .ok (payload.length, (writeVarint payload.length).length) := by
          rw [htake, encodeRecord, take_append, take_of_length_le hwhole]
          exact readVarint_writeVarint hpayload _
        rw [hread]
        dsimp only
        rw [if_pos (by omega)]
        rfl

/-- Parsing takes the whole records off the buffer. -/
theorem parseRecords_eq {fuel : ℕ} (hfuel : payloads.length ≤ fuel)
    (hsize : ∀ payload ∈ payloads ++ left, payload.length < 2 ^ 64) :
    parseRecords eof fuel (encodeRecords payloads ++ tail) = .ok (payloads, tail) := by
  induction payloads generalizing fuel with
  | nil => exact parseRecords_short hleft hshort heof fuel hsize
  | cons payload payloads ih =>
    cases fuel with
    | zero => simp at hfuel
    | succ fuel =>
      have hpayload : payload.length < 2 ^ 64 := hsize payload mem_cons_self
      have hread : readVarint (encodeRecords (payload :: payloads) ++ tail) =
          .ok (payload.length, (writeVarint payload.length).length) := by
        rw [encodeRecords_cons, encodeRecord, append_assoc, append_assoc]
        exact readVarint_writeVarint hpayload _
      have hne : encodeRecords (payload :: payloads) ++ tail ≠ [] := by
        intro hnil
        rw [hnil] at hread
        cases hread
      have hrest := ih (Nat.le_of_succ_le_succ hfuel) (fun x hx => hsize x (mem_cons_of_mem _ hx))
      rw [parseRecords, if_neg hne, hread]
      dsimp only
      rw [if_neg, encodeRecords_cons, encodeRecord, append_assoc, append_assoc,
        ← drop_drop, drop_left, drop_left, take_left, hrest]
      · rfl
      · rw [length_append, encodeRecords_cons, length_append, length_encodeRecord]
        omega

end

/-! ## The records that are left -/

/-- Every read of the chunk gets at least to the end of the record in which it begins. -/
def FedBy (env : Environment) (index : ℕ) (file : ByteBuffer) (chunk : SortedChunk) : Prop :=
  ∀ before payload after,
    file.slice chunk.startOffset chunk.chunkSize = encodeRecords (before ++ payload :: after) →
    ∀ position, (encodeRecords before).length ≤ position →
      position < (encodeRecords before).length + (encodeRecord payload).length →
      (encodeRecords before).length + (encodeRecord payload).length ≤
        position + env.bytesRead index position

/-- The buffer holds the first of the records that are not parsed. -/
def Supplied (bytes : Bytes) (payloads : List Bytes) : Prop :=
  ∀ payload ∈ payloads.head?, (encodeRecord payload).length ≤ bytes.length

/-- The chunk consists of the records `before`, which have been parsed, and `rest`, the first bytes of
which are in the buffer. -/
structure Holds (file : ByteBuffer) (chunk : SortedChunk) (before rest : List Bytes) : Prop where
  bytes : file.slice chunk.startOffset chunk.chunkSize = encodeRecords (before ++ rest)
  position : (encodeRecords before).length + chunk.buffer.length = chunk.totalBytesRead
  buffer : ∃ unread, encodeRecords rest = chunk.buffer ++ unread
  fits : ∀ payload ∈ rest, payload.length < 2 ^ 64 ∧ (encodeRecord payload).length ≤ chunk.capacity

namespace Holds

variable {file : ByteBuffer} {c : SortedChunk} {before rest : List Bytes}

section
variable (hholds : Holds file c before rest)
include hholds

theorem chunkSize_eq :
    c.chunkSize = (encodeRecords before).length + (encodeRecords rest).length := by
  have hlen := congrArg length hholds.bytes
  rwa [length_slice, encodeRecords_append, length_append] at hlen

/-- What is not in the buffer is still in the file. -/
theorem unread : encodeRecords rest = c.buffer ++ file.slice (c.startOffset + c.totalBytesRead)
      (c.chunkSize - c.totalBytesRead) := by
  obtain ⟨unread, hunread⟩ := hholds.buffer
  have hsize := hholds.chunkSize_eq
  have hpos := hholds.position
  rw [hunread, length_append] at hsize
  have hbytes := hholds.bytes
  rw [encodeRecords_append, hunread, ← append_assoc] at hbytes
  rw [← drop_slice _ (by omega), hbytes, drop_left' (by rw [length_append, hpos]), hunread]

theorem totalBytesRead_le : c.totalBytesRead ≤ c.chunkSize := by
  obtain ⟨unread, hunread⟩ := hholds.buffer
  have hpos := hholds.position
  have hsize := hholds.chunkSize_eq
  rw [hunread, length_append] at hsize
  omega

/-- When all of the chunk has been read, a buffer that does not hold a record is empty. -/
theorem rest_eq_nil (he : c.chunkSize - c.totalBytesRead = 0) (hshort : Short c.buffer rest) :
    rest = [] := by
  have hunread := hholds.unread
  rw [he, slice_zero, append_nil] at hunread
  cases rest with
  | nil => rfl
  | cons payload rest =>
    have hlen := hshort payload rfl
    rw [← hunread, encodeRecords_cons, length_append] at hlen
    omega

/-- While there is something to read, a buffer that does not hold a record has room for more. -/
theorem readBufferSize_ne_zero (he : c.chunkSize - c.totalBytesRead ≠ 0)
    (hshort : Short c.buffer rest) :
    c.readBufferSize ≠ 0 := by
  have hsize := hholds.chunkSize_eq
  have hpos := hholds.position
  cases rest with
  | nil =>
    simp only [encodeRecords, flatMap_nil, length_nil] at hsize hpos
    omega
  | cons payload rest =>
    have hlen := hshort payload rfl
    have hfit := (hholds.fits payload mem_cons_self).2
    unfold readBufferSize
    omega

/-- The capacity, the state and the parsed records of a chunk do not matter here. -/
theorem congr {x : SortedChunk} (hsame : x.startOffset = c.startOffset ∧ x.chunkSize = c.chunkSize)
    (hbuffer : x.buffer = c.buffer) (htotal : x.totalBytesRead = c.totalBytesRead)
    (hcapacity : c.capacity ≤ x.capacity) : Holds file x before rest := by
  refine ⟨?_, ?_, ?_, fun payload hpayload => ?_⟩
  · rw [hsame.1, hsame.2]
    exact hholds.bytes
  · rw [hbuffer, htotal]
    exact hholds.position
  · rw [hbuffer]
    exact hholds.buffer
  · have hfit := hholds.fits payload hpayload
    exact ⟨hfit.1, hfit.2.trans hcapacity⟩

end

variable {env : Environment} {i : ℕ}

theorem bytesReturned_le (hrequest : c.readBufferSize ≠ 0) :
    c.bytesReturned env i ≤ c.chunkSize - c.totalBytesRead := by
  unfold bytesReturned
  unfold readBufferSize at *
  omega

/-- A read appends the next bytes. -/
theorem readComplete (hholds : Holds file c before rest) (hrequest : c.readBufferSize ≠ 0) :
    Holds file (c.readComplete env i file) before rest := by
  have hreturned := @bytesReturned_le c env i hrequest
  refine ⟨hholds.bytes, ?_, ⟨file.slice (c.startOffset + c.totalBytesRead +
    c.bytesReturned env i) (c.chunkSize - c.totalBytesRead -
      c.bytesReturned env i), ?_⟩, hholds.fits⟩
  · have hpos := hholds.position
    simp only [SortedChunk.readComplete, length_append, length_slice]
    omega
  · rw [hholds.unread]
    simp only [SortedChunk.readComplete]
    rw [append_assoc, ← slice_append, Nat.add_sub_cancel' hreturned]

/-- A read that gets to the end of a record supplies it. -/
theorem supplied (hholds : Holds file c before rest) (hfed : FedBy env i file c)
    (hshort : Short c.buffer rest) :
    Supplied (c.readComplete env i file).buffer rest := by
  intro payload hpayload
  obtain ⟨left, rfl⟩ : ∃ left, rest = payload :: left := by
    cases rest with
    | nil => cases hpayload
    | cons a left =>
      cases hpayload
      exact ⟨left, rfl⟩
  have hlen := hshort payload rfl
  have hpos := hholds.position
  have hsize := hholds.chunkSize_eq
  have hfit := (hholds.fits payload mem_cons_self).2
  have hbytes := hfed before payload left hholds.bytes c.totalBytesRead (by omega) (by omega)
  rw [encodeRecords_cons, length_append] at hsize
  simp only [SortedChunk.readComplete, length_append, length_slice,
    bytesReturned, readBufferSize]
  omega

end Holds

/-! ## One call of `next` -/

/-- Where a chunk stands between two calls: its first read or a prefetch is in flight, or the buffer
holds the next record, or there are parsed records. -/
inductive Stage (chunk : SortedChunk) (rest : List Bytes) : Prop
  | requested (hstate : chunk.ioState = .waitingForRead) (hrecords : chunk.records = [])
      (hnext : chunk.nextState = .start) (hshort : Short chunk.buffer rest)
      (hrequest : chunk.readBufferSize ≠ 0)
  | prefetching (hstate : chunk.ioState = .waitingForRead) (hrecords : chunk.records.length = 1)
      (hnext : chunk.nextState = .finish) (hshort : Short chunk.buffer rest)
      (hrequest : chunk.readBufferSize ≠ 0)
  | supplied (hstate : chunk.inFlight = false) (hrecords : chunk.records = [])
      (hnext : chunk.nextState = .start) (hsupplied : Supplied chunk.buffer rest)
  | fetched (hstate : chunk.inFlight = false) (hrecords : chunk.records.length = 1)
      (hnext : chunk.nextState = .finish) (hsupplied : Supplied chunk.buffer rest)
  | parsed (hstate : chunk.inFlight = false) (hrecords : chunk.records ≠ [])
      (hnext : chunk.nextState = .start) (hshort : Short chunk.buffer rest)

/-- The records that the chunk has still to return. -/
def Remains (file : ByteBuffer) (chunk : SortedChunk) (run : List Bytes) : Prop :=
  ∃ before rest, Holds file chunk before rest ∧ Stage chunk rest ∧
    (chunk.ioState = .readEOF → chunk.totalBytesRead = chunk.chunkSize) ∧
    run = chunk.records ++ rest

/-- Two states of one chunk of the file. -/
def SameChunk (first second : SortedChunk) : Prop :=
  first.startOffset = second.startOffset ∧ first.chunkSize = second.chunkSize

theorem SameChunk.fedBy {first second : SortedChunk} (hsame : SameChunk first second)
    {env : Environment} {i : ℕ} {file : ByteBuffer} (hfed : FedBy env i file first) :
    FedBy env i file second := by
  unfold FedBy at hfed ⊢
  rwa [hsame.1, hsame.2] at hfed

section Next

variable {env : Environment} {j : ℕ} {file : ByteBuffer} {chunk : SortedChunk}
  {before rest run : List Bytes}

/-- What a call of `next` may do to the records of a chunk: take the first one, find that there is
none, or wait for a read. -/
def Advances (file : ByteBuffer) (run : List Bytes) : SortedChunk × ChunkNextResult → Prop
  | (chunk, .done (some payload)) => ∃ left, run = payload :: left ∧ Remains file chunk left ∧
      chunk.inFlight = false
  | (chunk, .done none) => run = [] ∧ Remains file chunk [] ∧ chunk.inFlight = false
  | (chunk, .io) => run ≠ [] ∧ Remains file chunk run ∧ chunk.nextState = .finish ∧
      chunk.inFlight = true

/-- `NextState::Finish`: the first parsed record is returned. -/
theorem advances_finish (hholds : Holds file chunk before rest) (hidle : chunk.inFlight = false)
    (hrs : chunk.records ≠ []) (heof : chunk.ioState = .readEOF →
      chunk.totalBytesRead = chunk.chunkSize)
    (hsupplied : chunk.records.length = 1 → Supplied chunk.buffer rest)
    (hshort : chunk.records.length ≠ 1 → Short chunk.buffer rest) :
    Advances file (chunk.records ++ rest) chunk.finish := by
  obtain ⟨r, rs, hcons⟩ := exists_cons_of_ne_nil hrs
  rw [finish, hcons]
  refine ⟨rs ++ rest, rfl, ⟨before, rest, ?_, ?_, heof, rfl⟩, hidle⟩
  · exact { hholds with }
  · rw [hcons] at hsupplied hshort
    cases rs with
    | nil => exact .supplied hidle rfl rfl (hsupplied rfl)
    | cons b others => exact .parsed hidle (by simp) rfl (hshort (by simp))

section
variable (hholds : Holds file chunk before rest) (hfed : FedBy env j file chunk)
include hholds hfed

/-- A read finds that there is nothing left, is in flight, or has supplied the next record. -/
theorem read_cases (hshort : Short chunk.buffer rest) :
    (chunk.read env j file = { chunk with ioState := .readEOF } ∧
        Holds file { chunk with ioState := .readEOF } before rest ∧ rest = [] ∧
        chunk.totalBytesRead = chunk.chunkSize) ∨
      (chunk.read env j file = { chunk with ioState := .waitingForRead } ∧
        Holds file { chunk with ioState := .waitingForRead } before rest ∧
        chunk.readBufferSize ≠ 0) ∨
      (chunk.read env j file = chunk.readComplete env j file ∧
        Holds file (chunk.readComplete env j file) before rest ∧
        Supplied (chunk.readComplete env j file).buffer rest) := by
  have hsame : ∀ ioState, Holds file { chunk with ioState } before rest := fun _ =>
    hholds.congr ⟨rfl, rfl⟩ rfl rfl le_rfl
  by_cases hrequest : chunk.readBufferSize = 0
  · have he : chunk.chunkSize - chunk.totalBytesRead = 0 := by
      by_contra hmore
      exact hholds.readBufferSize_ne_zero hmore hshort hrequest
    have htotal := hholds.totalBytesRead_le
    refine .inl ⟨?_, hsame _, hholds.rest_eq_nil he hshort, by omega⟩
    rw [SortedChunk.read, if_pos hrequest, if_pos he]
  · rw [SortedChunk.read, if_neg hrequest]
    split_ifs with honce
    · exact .inr (.inr ⟨rfl, hholds.readComplete hrequest, hholds.supplied hfed hshort⟩)
    · exact .inr (.inl ⟨rfl, hsame _, hrequest⟩)

/-- A prefetch before the last parsed record is returned. -/
theorem advances_read (hrs : chunk.records.length = 1) (hnx : chunk.nextState = .finish)
    (hshort : Short chunk.buffer rest) :
    Advances file (chunk.records ++ rest) (chunk.read env j file).finishOrWait := by
  have hne : chunk.records ≠ [] := fun hnil => by simp [hnil] at hrs
  rcases read_cases hholds hfed hshort with
    ⟨hread, hholds', rfl, htotal⟩ | ⟨hread, hholds', hrequest⟩ | ⟨hread, hholds', hsupplied⟩
  · rw [hread, finishOrWait, if_neg (by simp)]
    exact advances_finish hholds' rfl hne (fun _ => htotal) (fun _ _ hno => by cases hno)
      (fun _ => hshort)
  · rw [hread, finishOrWait, if_pos rfl]
    refine ⟨by simp [hne], ⟨before, rest, hholds', ?_, nofun, rfl⟩, hnx, rfl⟩
    exact .prefetching rfl hrs hnx hshort hrequest
  · rw [hread, finishOrWait, if_neg (by simp [readComplete])]
    exact advances_finish hholds' rfl hne nofun (fun _ => hsupplied)
      (fun hmany => absurd hrs hmany)

theorem remains_read (hrs : chunk.records = []) (hnx : chunk.nextState = .start)
    (hshort : Short chunk.buffer rest) : Remains file (chunk.read env j file) rest := by
  rcases read_cases hholds hfed hshort with
    ⟨hread, hholds', rfl, htotal⟩ | ⟨hread, hholds', hrequest⟩ | ⟨hread, hholds', hsupplied⟩
  · rw [hread]
    exact ⟨before, [], hholds', .supplied rfl hrs hnx (fun _ hno => by cases hno),
      fun _ => htotal, by rw [hrs]; rfl⟩
  · rw [hread]
    exact ⟨before, rest, hholds', .requested rfl hrs hnx hshort hrequest, nofun,
      by rw [hrs]; rfl⟩
  · rw [hread]
    exact ⟨before, rest, hholds', .supplied rfl hrs hnx hsupplied, nofun,
      by rw [readComplete, hrs]; rfl⟩

end

theorem Remains.complete (hremains : Remains file chunk run) (hfed : FedBy env j file chunk)
    (hflight : chunk.inFlight = true) :
    Remains file (chunk.complete env j file) run ∧
      (chunk.complete env j file).inFlight = false ∧
      (chunk.complete env j file).nextState = chunk.nextState := by
  obtain ⟨before, rest, hholds, hstage, heof, rfl⟩ := hremains
  have hread : chunk.ioState = .waitingForRead →
      chunk.complete env j file = chunk.readComplete env j file := by
    intro hs
    rw [complete, hs]
  cases hstage with
  | requested hs hrs hnx hshort hrequest =>
    rw [hread hs]
    exact ⟨⟨before, rest, hholds.readComplete hrequest,
      .supplied rfl hrs hnx (hholds.supplied hfed hshort), nofun, rfl⟩,
      rfl, rfl⟩
  | prefetching hs hrs hnx hshort hrequest =>
    rw [hread hs]
    exact ⟨⟨before, rest, hholds.readComplete hrequest,
      .fetched rfl hrs hnx (hholds.supplied hfed hshort), nofun, rfl⟩,
      rfl, rfl⟩
  | supplied hs | fetched hs | parsed hs => exact absurd hflight (by simp [hs])

/-- A chunk with parsed records returns the first, after a prefetch if it is the last one. -/
theorem advances_parsed (hholds : Holds file chunk before rest) (hfed : FedBy env j file chunk)
    (hidle : chunk.inFlight = false) (hrs : chunk.records ≠ [])
    (hnx : chunk.nextState = .finish) (hshort : Short chunk.buffer rest)
    (heof : chunk.ioState = .readEOF → chunk.totalBytesRead = chunk.chunkSize) :
    Advances file (chunk.records ++ rest)
      (if chunk.records.length = 1 ∧ chunk.ioState ≠ .readEOF then
        (chunk.read env j file).finishOrWait else chunk.finish) := by
  split_ifs with hlast
  · exact advances_read hholds hfed hlast.1 hnx hshort
  · refine advances_finish hholds hidle hrs heof (fun hone => ?_) (fun _ => hshort)
    have he : chunk.ioState = .readEOF := by
      by_contra hmore
      exact hlast ⟨hone, hmore⟩
    rw [hholds.rest_eq_nil (by rw [heof he, Nat.sub_self]) hshort]
    exact fun _ hno => by cases hno

theorem sameChunk_finishOrWait (chunk : SortedChunk) : SameChunk chunk.finishOrWait.1 chunk := by
  unfold finishOrWait
  split_ifs <;> exact ⟨rfl, rfl⟩

theorem sameChunk_read (chunk : SortedChunk) : SameChunk (chunk.read env j file) chunk := by
  unfold SortedChunk.read
  split_ifs <;> exact ⟨rfl, rfl⟩

theorem length_le_encodeRecords {payloads : List Bytes}
    (hsize : ∀ payload ∈ payloads, payload.length < 2 ^ 64) :
    payloads.length ≤ (encodeRecords payloads).length := by
  induction payloads with
  | nil => exact Nat.zero_le _
  | cons payload payloads ih =>
    have hpos := length_writeVarint_pos (hsize payload mem_cons_self)
    have hrest := ih fun x hx => hsize x (mem_cons_of_mem _ hx)
    rw [encodeRecords_cons, length_append, length_encodeRecord, length_cons]
    omega

/-- A buffer that holds a record is parsed into one or more records and a part of the next one. -/
theorem exists_parse (hholds : Holds file chunk before rest) (hrecords : chunk.records = [])
    (hsupplied : Supplied chunk.buffer rest) (hne : rest ≠ [])
    (heof : chunk.ioState = .readEOF → chunk.totalBytesRead = chunk.chunkSize) :
    ∃ payloads left tail, rest = payloads ++ left ∧ payloads ≠ [] ∧
      chunk.parse = .ok { chunk with records := payloads, buffer := tail } ∧
      Holds file { chunk with records := payloads, buffer := tail } (before ++ payloads) left ∧
      Short tail left := by
  obtain ⟨unread, hunread⟩ := hholds.buffer
  obtain ⟨payloads, left, tail, rfl, hbuffer, hleft, hshort⟩ := exists_split hunread
  have hholds' : Holds file { chunk with records := payloads, buffer := tail }
      (before ++ payloads) left := by
    refine ⟨?_, ?_, ⟨unread, hleft⟩, fun payload hpayload =>
      hholds.fits payload (mem_append_right _ hpayload)⟩
    · rw [append_assoc]
      exact hholds.bytes
    · have hpos := hholds.position
      rw [hbuffer, length_append] at hpos
      rw [encodeRecords_append, length_append]
      dsimp only
      omega
  have hnonempty : payloads ≠ [] := by
    rintro rfl
    cases left with
    | nil => exact hne rfl
    | cons payload left =>
      have hlong := hsupplied payload rfl
      have hless := hshort payload rfl
      rw [hbuffer] at hlong
      exact absurd hlong (Nat.not_le.2 hless)
  refine ⟨payloads, left, tail, rfl, hnonempty, ?_, hholds', hshort⟩
  have hsize : ∀ payload ∈ payloads ++ left, payload.length < 2 ^ 64 := fun payload hpayload =>
    (hholds.fits payload hpayload).1
  have htail : decide (chunk.ioState = .readEOF) = true → tail = [] := by
    intro hstate
    have he := heof (of_decide_eq_true hstate)
    obtain rfl := hholds'.rest_eq_nil (by dsimp only; omega) hshort
    exact (append_eq_nil_iff.1 hleft.symm).1
  have hfuel : payloads.length ≤ chunk.buffer.length := by
    have hlen := length_le_encodeRecords fun payload hpayload =>
      hsize payload (mem_append_left _ hpayload)
    rw [hbuffer, length_append]
    omega
  have hparse := parseRecords_eq hleft hshort htail hfuel hsize
  rw [← hbuffer] at hparse
  rw [parse, if_pos hrecords, hparse]
  rfl

/-- `next` from `NextState::Start`, with parsed records or after parsing some. -/
theorem next_of_parse {parsed : SortedChunk} (hnx : chunk.nextState = .start)
    (hsome : ¬ (chunk.records = [] ∧ chunk.buffer = [])) (hparse : chunk.parse = .ok parsed)
    (hsame : SameChunk parsed chunk) (hfed : FedBy env j file chunk)
    (hholds : Holds file parsed before rest) (hidle : parsed.inFlight = false)
    (hrs : parsed.records ≠ []) (hshort : Short parsed.buffer rest)
    (heof : parsed.ioState = .readEOF → parsed.totalBytesRead = parsed.chunkSize) :
    ∃ result, chunk.next env j file = .ok result ∧ SameChunk result.1 chunk ∧
      Advances file (parsed.records ++ rest) result := by
  have hstarted : Holds file { parsed with nextState := .finish } before rest :=
    hholds.congr ⟨rfl, rfl⟩ rfl rfl le_rfl
  have hadvances := @advances_parsed env j file _ before rest hstarted
    (SameChunk.fedBy ⟨hsame.1.symm, hsame.2.symm⟩ hfed) hidle hrs rfl hshort heof
  refine ⟨_, ?_, ?_, hadvances⟩
  · rw [SortedChunk.next, hnx]
    rw [if_neg hsome, hparse]
    change (if _ then Except.ok _ else Except.ok _) = _
    split_ifs <;> rfl
  · split_ifs
    · exact ⟨(sameChunk_finishOrWait _).1.trans ((sameChunk_read _).1.trans hsame.1),
        (sameChunk_finishOrWait _).2.trans ((sameChunk_read _).2.trans hsame.2)⟩
    · exact hsame

/-- A call of `next` takes the first of the remaining records, or waits for a read, and finds nothing
only where nothing remains. -/
theorem Remains.next (hremains : Remains file chunk run) (hfed : FedBy env j file chunk)
    (hidle : chunk.inFlight = false) :
    ∃ result, chunk.next env j file = .ok result ∧ SameChunk result.1 chunk ∧
      Advances file run result := by
  obtain ⟨before, rest, hholds, hstage, heof, rfl⟩ := hremains
  cases hstage with
  | requested hs | prefetching hs =>
    simp [inFlight, hs] at hidle
  | supplied hs hrs hnx hsupplied =>
    by_cases hnil : rest = []
    · subst hnil
      obtain ⟨unread, hunread⟩ := hholds.buffer
      have hbuffer : chunk.buffer = [] := (append_eq_nil_iff.1 hunread.symm).1
      refine ⟨(chunk, .done none), ?_, ⟨rfl, rfl⟩, by rw [hrs]; rfl, ?_, hidle⟩
      · rw [SortedChunk.next, hnx]
        rw [if_pos ⟨hrs, hbuffer⟩]
      · exact ⟨before, [], hholds, .supplied hs hrs hnx hsupplied, heof, by rw [hrs]; rfl⟩
    · obtain ⟨payloads, left, tail, rfl, hne, hparse, hparsed, hshort⟩ :=
        exists_parse hholds hrs hsupplied hnil heof
      have hbuffer : chunk.buffer ≠ [] := by
        intro hempty
        obtain ⟨payload, others, rfl⟩ := exists_cons_of_ne_nil hne
        have hlong := hsupplied payload rfl
        have hpos := length_writeVarint_pos (hholds.fits payload mem_cons_self).1
        rw [hempty, length_encodeRecord, length_nil] at hlong
        omega
      rw [hrs]
      exact next_of_parse hnx (fun h => hbuffer h.2) hparse ⟨rfl, rfl⟩ hfed hparsed hidle hne
        hshort heof
  | fetched hs hrs hnx hsupplied =>
    refine ⟨chunk.finish, ?_, ⟨rfl, rfl⟩, advances_finish hholds hidle ?_ heof (fun _ => hsupplied)
      (fun hmany => absurd hrs hmany)⟩
    · rw [SortedChunk.next, hnx]
    · intro hnil
      rw [hnil] at hrs
      cases hrs
  | parsed hs hrs hnx hshort =>
    have hparse : chunk.parse = .ok chunk := by rw [parse, if_neg hrs]
    exact next_of_parse hnx (fun h => hrs h.1) hparse ⟨rfl, rfl⟩ hfed hholds hidle hrs hshort heof

/-- Only a chunk that starts on its next record waits for a read. -/
theorem nextState_of_io {next : SortedChunk} (hnx : chunk.next env j file = .ok (next, .io)) :
    chunk.nextState = .start := by
  cases hs : chunk.nextState with
  | start => rfl
  | finish =>
    rw [SortedChunk.next, hs] at hnx
    cases hnx

end Next

end Turso.Sorter
