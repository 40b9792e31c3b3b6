import Turso.Mvcc.Dependencies
import Turso.Foundation.Snapshot

/-!
# Chains in terms of transactions

A stamp stands for a transaction, whether it is the id or already the end timestamp.  With the
transactions in place of the stamps, a chain is one of `Snapshot`, over the timeline of the records
of begins and ends.

Which transactions commit is not known while they run.  `Viable` are the sets of transactions that
may still turn out to be the committed ones: what is viable later was viable before, and the
committed transactions are viable at any time.
-/

namespace Turso.Mvcc

open History

open Snapshot (Timeline)

variable {RowId Row : Type}

namespace History

variable (history : History RowId Row)

def beginOf (id : TxId) : Timestamp :=
  ((history.records id).map (·.beginTs)).getD 0

def endOf (id : TxId) : Option Timestamp :=
  (history.records id).bind (·.endTs)

def times : Timeline TxId :=
  ⟨history.beginOf, history.endOf⟩

/-- Whose stamp it is. -/
def writer : TxTimestampOrId → Option TxId
  | .txId id => some id
  | .timestamp ts => history.ender ts

def image (version : RowVersion Row) : Snapshot.Version TxId Row where
  id := version.id
  creator := version.beginning.bind history.writer
  deleter := version.ending.bind history.writer
  row := version.row

/-- The transactions of the set may be those that commit: no decision is against it, and they rely
on each other only. -/
structure Viable (survivors : Set TxId) : Prop where
  committed : ∀ {id}, history.Has .committed id → id ∈ survivors
  aborted : ∀ {id}, history.Has .aborted id → id ∉ survivors
  relied : ∀ {id record other}, history.records id = some record → id ∈ survivors →
    other ∈ record.relied → other ∈ survivors

end History

variable (s : System RowId Row)

/-- The chain of a row, with the transactions in place of the stamps. -/
def System.chain (row : RowId) : Set (Snapshot.Version TxId Row) :=
  s.history.image '' {version | version ∈ s.store.rows row}

/-- The last writes to a row. -/
def System.writes (row : RowId) (id : TxId) : Option (Option Row) :=
  s.history.lastWrite id row

/-! ## Records and the timeline -/

section Timeline
variable {history : History RowId Row} {id later : TxId} {ts : Timestamp}
  {record : Record RowId Row}

theorem History.endOf_eq_some : history.endOf id = some ts ↔
    ∃ record, history.records id = some record ∧ record.endTs = some ts :=
  Option.bind_eq_some_iff

theorem History.beginOf_eq (hr : history.records id = some record) :
    history.beginOf id = record.beginTs := by
  simp [beginOf, hr]

theorem History.endOf_eq (hr : history.records id = some record) :
    history.endOf id = record.endTs := by
  simp [endOf, hr]

theorem History.before_iff : history.times.Before id later ↔
    ∃ ts, history.endOf id = some ts ∧ ts < history.beginOf later := Iff.rfl

/-- What was written is known of recorded transactions only. -/
theorem History.known_of_lastWrite {r : RowId} (hwrote : history.lastWrite id r ≠ none) :
    ∃ record, history.records id = some record := by
  cases hrecord : history.records id with
  | none => simp [lastWrite, hrecord] at hwrote
  | some record => exact ⟨record, rfl⟩

theorem System.Agrees.proper [DecidableEq RowId] {s : System RowId Row} (h : s.Agrees) :
    s.history.times.Proper where
  start_lt_stop := by
    intro id ts hstop
    obtain ⟨r, hr, he⟩ := endOf_eq_some.mp hstop
    calc s.history.beginOf id = r.beginTs := beginOf_eq hr
      _ < ts := h.begin_lt_end hr he
  stop_injective := by
    intro id x ts hstop hstop'
    have hender := h.ender_iff.mpr (endOf_eq_some.mp hstop)
    rw [h.ender_iff.mpr (endOf_eq_some.mp hstop')] at hender
    exact (Option.some.inj hender).symm

end Timeline

/-! ## What is recorded stays, for a whole run -/

section Later
variable {clock clock' : Timestamp} {old middle new : History RowId Row} {id later : TxId}
  {sv : Set TxId} {row : RowId} {r : Record RowId Row}

theorem Record.Evolves.trans {old middle new : Record RowId Row} (h : old.Evolves middle)
    (h' : middle.Evolves new) : old.Evolves new where
  beginTs := h'.beginTs.trans h.beginTs
  endTs := fun he => h'.endTs (h.endTs he)
  outcome := by
    intro hdone
    rw [h'.outcome (by rwa [h.outcome hdone]), h.outcome hdone]
  relied := fun _ hm => h'.relied (h.relied hm)
  writes := by
    intro he
    obtain ⟨endTs, hendTs⟩ := Option.ne_none_iff_exists'.mp he
    rw [h'.writes (by simp [h.endTs hendTs]), h.writes he]

theorem History.Evolves.refl (history : History RowId Row) : history.Evolves clock history :=
  .of_eq rfl rfl

theorem History.Evolves.trans (h : old.Evolves clock middle) (h' : middle.Evolves clock' new)
    (hle : clock ≤ clock') : old.Evolves clock new where
  records := by
    intro id r hr
    obtain ⟨r', hr', hev⟩ := h.records hr
    obtain ⟨record'', hrecord'', hev'⟩ := h'.records hr'
    exact ⟨record'', hrecord'', hev.trans hev'⟩
  ender := fun hts => h'.ender (h.ender hts)
  earlier := by
    intro id r' endTs hr' he hearly
    obtain ⟨r, hr, he⟩ := h'.earlier hr' he (hearly.trans hle)
    exact h.earlier hr he hearly

section
variable (h : old.Evolves clock new)
include h

theorem History.Evolves.endOf {ts : Timestamp} (he : old.endOf id = some ts) :
    new.endOf id = some ts := by
  obtain ⟨r, hr, he⟩ := endOf_eq_some.mp he
  obtain ⟨r', hr', hev⟩ := h.records hr
  exact endOf_eq_some.mpr ⟨r', hr', hev.endTs he⟩

theorem History.Evolves.endOf_of_le {ts : Timestamp} (he : new.endOf id = some ts)
    (hle : ts ≤ clock) : old.endOf id = some ts := by
  obtain ⟨r', hr', he⟩ := endOf_eq_some.mp he
  exact endOf_eq_some.mpr (h.earlier hr' he hle)

theorem History.Evolves.beginOf (hr : old.records id = some r) :
    new.beginOf id = old.beginOf id := by
  obtain ⟨r', hr', hev⟩ := h.records hr
  rw [beginOf_eq hr', beginOf_eq hr, hev.beginTs]

/-- Nobody ends before a transaction that has begun. -/
theorem History.Evolves.before_iff (hr : old.records later = some r) (hle : r.beginTs ≤ clock) :
    new.times.Before id later ↔ old.times.Before id later := by
  rw [History.before_iff, History.before_iff, h.beginOf hr, History.beginOf_eq hr]
  constructor
  · rintro ⟨ts, he, hlt⟩
    exact ⟨ts, h.endOf_of_le he (hlt.le.trans hle), hlt⟩
  · rintro ⟨ts, he, hlt⟩
    exact ⟨ts, h.endOf he, hlt⟩

theorem History.Evolves.before (hb : old.times.Before id later) : new.times.Before id later := by
  obtain ⟨ts, he, hlt⟩ := History.before_iff.mp hb
  cases hr : old.records later with
  | none => simp [History.beginOf, hr] at hlt
  | some r =>
    rw [← h.beginOf hr] at hlt
    exact ⟨ts, h.endOf he, hlt⟩

/-- What a transaction wrote is settled when it has ended. -/
theorem History.Evolves.lastWrite (he : old.endOf id ≠ none) :
    new.lastWrite id row = old.lastWrite id row := by
  obtain ⟨ts, he⟩ := Option.ne_none_iff_exists'.mp he
  obtain ⟨r, hr, he⟩ := endOf_eq_some.mp he
  obtain ⟨r', hr', hev⟩ := h.records hr
  simp [History.lastWrite, hr, hr', hev.writes (by simp [he])]

end

/-- What may turn out to be committed might before. -/
theorem History.Viable.earlier (h : new.Viable sv) (hev : old.Evolves clock new) :
    old.Viable sv where
  committed := fun hhas => h.committed (hev.has (by simp) hhas)
  aborted := fun hhas => h.aborted (hev.has (by simp) hhas)
  relied := by
    intro id r x hr hsv hrelied
    obtain ⟨r', hr', hrs⟩ := hev.records hr
    exact h.relied hr' hsv (hrs.relied hrelied)

/-- The committed transactions relied on each other only. -/
theorem System.Reliance.viable {s : System RowId Row} (h : s.Reliance) :
    s.history.Viable {id | s.history.Has .committed id} where
  committed := fun hhas => hhas
  aborted := by
    rintro id ⟨r, hr, haborted⟩ ⟨r', hr', hcom⟩
    rw [hr] at hr'
    cases hr'
    rw [haborted] at hcom
    cases hcom
  relied := by
    rintro id r x hr ⟨r', hr', hcom⟩ hrelied
    rw [hr] at hr'
    cases hr'
    exact h.committed hr hcom hrelied

end Later

/-! ## Stamps and the transactions they stand for -/

section Stamps
variable {s s' : System RowId Row} {row : RowId} {version : RowVersion Row} {id : TxId}

variable {stamp : TxTimestampOrId}

/-- Every stamp stands for a transaction. -/
theorem System.Stamps.writer (h : s.Stamps) (hm : version ∈ s.store.rows row)
    (hcarries : version.Carries stamp) :
    ∃ id, s.history.writer stamp = some id := by
  cases stamp with
  | txId id => exact ⟨id, rfl⟩
  | timestamp ts =>
    obtain ⟨id, -, hender, -⟩ := h.timed hm hcarries
    exact ⟨id, hender⟩

variable {clock : Timestamp} {new : History RowId Row}

theorem History.Evolves.writer {old : History RowId Row}
    (h : old.Evolves clock new) (hwriter : old.writer stamp = some id) :
    new.writer stamp = some id := by
  cases stamp with
  | txId x => exact hwriter
  | timestamp ts => exact h.ender hwriter

/-- The versions of a chain keep their images while time goes on. -/
theorem System.Stamps.image_eq (h : s.Stamps) (hm : version ∈ s.store.rows row)
    (hev : s.history.Evolves clock new) :
    new.image version = s.history.image version := by
  have hstamp : ∀ stamp : Option TxTimestampOrId,
      (∀ found, stamp = some found → version.Carries found) →
      stamp.bind new.writer = stamp.bind s.history.writer := by
    rintro (_ | stamp) hcarries
    · rfl
    obtain ⟨id, hwriter⟩ := h.writer hm (hcarries stamp rfl)
    simp [hwriter, hev.writer hwriter]
  simp only [image, hstamp version.beginning fun _ => .inl,
    hstamp version.ending fun _ => .inr]

/-- The chain of a row that a step leaves alone. -/
theorem System.Stamps.chain_eq (h : s.Stamps)
    (hev : s.history.Evolves clock s'.history)
    (hrows : s'.store.rows row = s.store.rows row) : s'.chain row = s.chain row := by
  unfold System.chain
  rw [hrows]
  exact Set.image_congr fun v hm => h.image_eq hm hev

end Stamps

end Turso.Mvcc
