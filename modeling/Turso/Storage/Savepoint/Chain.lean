import Turso.Storage.Savepoint.Spec

/-!
# What the subjournal holds

The pager keeps no copies of pages; it keeps images of the pages that have changed
since a savepoint, and only the newest savepoint's bitmap says which images exist.

The invariant is stated for one savepoint at a time, against the *view* it has: the
subjournal, the log and the contents as of the moment when the next younger savepoint
was opened, or now for the newest.  In its view a savepoint can be restored
(`Restorable`): undoing the images behind its start gives the contents it was opened
with, and a page without an image has not been written to the log since.  A `Chain` is
the stack of these facts.

Undoing is compositional in the journal, so the facts compose along the stack
(`Restorable.trans`), and a savepoint can be removed from the top (`Chain.pop`).  A step
of the pager therefore only has to reestablish the fact for the newest savepoint.
-/

namespace Turso.Subjournal

open Savepoint Option Function List KeyedLog

variable {locked : Bool} {newer older savepoint : Savepoint} {frame olderFrame : Frame}
  {frames : List Frame} {savepoints : List Savepoint}

/-- What a savepoint depends on. -/
structure View where
  journal : List (ℕ × ByteBuffer)
  wal : List (ℕ × ByteBuffer)
  contents : ℕ → ByteBuffer

def Pager.view (pager : Pager) : View where
  journal := pager.subjournal.getD []
  wal := pager.wal
  contents := pager.contents

/-- The position in the log to which a rollback rewinds it. -/
def Savepoint.position (savepoint : Savepoint) (wal : List (ℕ × ByteBuffer)) : ℕ :=
  savepoint.walPos.getD wal.length

/-- The view when the savepoint was opened, with the contents it had then. -/
def View.openedAt (view : View) (savepoint : Savepoint) (contents : ℕ → ByteBuffer) : View where
  journal := view.journal.take savepoint.startOffset
  wal := view.wal.take (savepoint.position view.wal)
  contents := contents

/-- The images behind the start of the savepoint lead back to `snapshot`; a page that has
none is not in the log behind the savepoint's position either. -/
structure Restorable (savepoint : Savepoint) (snapshot : ℕ → ByteBuffer) (view : View) :
    Prop where
  undo_eq : ∀ id ≤ savepoint.dbSize,
    undo (view.journal.drop savepoint.startOffset) view.contents id = snapshot id
  unlogged : ∀ id ≤ savepoint.dbSize, id ∉ keys (view.journal.drop savepoint.startOffset) →
    id ∉ keys (view.wal.drop (savepoint.position view.wal))

/-- A savepoint and the frame it stands for, in its view. -/
structure Level (locked : Bool) (savepoint : Savepoint) (frame : Frame) (view : View) : Prop where
  kind_eq : savepoint.kind = frame.kind
  counter_eq : savepoint.deferredFkViolations = frame.deferredFkViolations
  start_le : savepoint.startOffset ≤ view.journal.length
  write_eq : savepoint.writeOffset = view.journal.length
  bitmap : ∀ id ∈ savepoint.pageBitmap, id ∈ keys (view.journal.drop savepoint.startOffset)
  size_eq : savepoint.dbSize = databaseSize frame.contents
  size_pos : 1 ≤ savepoint.dbSize
  size_le : savepoint.dbSize ≤ databaseSize view.contents
  locked_eq : savepoint.walPos.isSome = locked
  position_le : savepoint.position view.wal ≤ view.wal.length
  restorable : Restorable savepoint frame.contents view

/-- The stack of savepoints stands for the stack of frames. -/
inductive Chain (locked : Bool) : List Savepoint → List Frame → View → Prop
  | nil {view : View} : view.journal = [] → Chain locked [] [] view
  | cons {savepoint : Savepoint} {older : List Savepoint} {frame : Frame} {frames : List Frame}
      {view : View} : Level locked savepoint frame view →
      Chain locked older frames (view.openedAt savepoint frame.contents) →
      Chain locked (savepoint :: older) (frame :: frames) view

/-! ## Composition -/

variable {view : View}

theorem drop_eq_drop_take_append {α : Type*} (log : List α) {inner outer : ℕ}
    (hle : outer ≤ inner) (hlen : inner ≤ log.length) :
    log.drop outer = (log.take inner).drop outer ++ log.drop inner := by
  conv_lhs => rw [← take_append_drop inner log]
  rw [drop_append_of_le_length]
  simpa [Nat.min_eq_left hlen] using hle

section
variable (hnewer : Level locked newer frame view)
  (holder : Level locked older olderFrame (view.openedAt newer frame.contents))
include hnewer holder

/-- The position of an older savepoint, seen from a newer one or from now. -/
theorem position_openedAt :
    older.position (view.openedAt newer frame.contents).wal = older.position view.wal ∧
      older.position view.wal ≤ newer.position view.wal := by
  have hle := holder.position_le
  have hlen : (view.openedAt newer frame.contents).wal.length = newer.position view.wal :=
    length_take_of_le hnewer.position_le
  rw [hlen] at hle
  cases hpos : older.walPos with
  | some frame =>
    simp only [position, hpos, getD_some] at hle ⊢
    exact ⟨trivial, hle⟩
  | none =>
    -- Neither position is known yet, so both savepoints see the whole log.
    have hnewerPos : newer.walPos = none := by
      rw [← not_isSome_iff_eq_none, hnewer.locked_eq, ← holder.locked_eq, hpos]
      simp
    rw [position, position, hpos, getD_none, getD_none, hlen, position, hnewerPos, getD_none]
    exact ⟨rfl, le_rfl⟩

theorem openedAt_openedAt (contents : ℕ → ByteBuffer) :
    (view.openedAt newer frame.contents).openedAt older contents = view.openedAt older contents := by
  obtain ⟨hposition, hle⟩ := position_openedAt hnewer holder
  have hstart := holder.start_le
  rw [View.openedAt, length_take_of_le hnewer.start_le] at hstart
  rw [View.openedAt, hposition]
  simp [View.openedAt, take_take, Nat.min_eq_left hle, Nat.min_eq_left hstart]

/-- If the newer savepoint can be restored, and from what it restores the older one
could, then the older one can be restored directly. -/
theorem Restorable.trans : Restorable older olderFrame.contents view := by
  have hstart : older.startOffset ≤ newer.startOffset := by
    have hle := holder.start_le
    rwa [View.openedAt, length_take_of_le hnewer.start_le] at hle
  have hsize : older.dbSize ≤ newer.dbSize := hnewer.size_eq ▸ holder.size_le
  have hjournal := drop_eq_drop_take_append view.journal hstart hnewer.start_le
  obtain ⟨hpos, hle⟩ := position_openedAt hnewer holder
  constructor
  · intro id hid
    rw [hjournal, undo_append, ← holder.restorable.undo_eq id hid]
    exact undo_apply_congr (hnewer.restorable.undo_eq id (hid.trans hsize))
  · intro id hid hkeys
    rw [hjournal, KeyedLog.keys_append, mem_append, not_or] at hkeys
    have hearly := holder.restorable.unlogged id hid hkeys.1
    have hlate := hnewer.restorable.unlogged id (hid.trans hsize) hkeys.2
    rw [hpos] at hearly
    rw [drop_eq_drop_take_append view.wal hle hnewer.position_le, KeyedLog.keys_append, mem_append]
    exact not_or.2 ⟨hearly, hlate⟩

end

/-- Removing the newest savepoint leaves the next one in charge, at the same end of the
subjournal. -/
theorem Chain.pop {rest : List Savepoint}
    (hch : Chain locked (newer :: older :: rest) (frame :: olderFrame :: frames) view) :
    Chain locked ({ older with writeOffset := view.journal.length } :: rest)
      (olderFrame :: frames) view := by
  cases hch with
  | cons hnewer htail =>
    cases htail with
    | cons holder hrest =>
      have hstart := holder.start_le
      rw [View.openedAt, length_take_of_le hnewer.start_le] at hstart
      rw [openedAt_openedAt hnewer holder] at hrest
      refine .cons ?_ hrest
      refine
        { holder with
          start_le := hstart.trans hnewer.start_le
          write_eq := rfl
          bitmap := ?_
          size_le := holder.size_le.trans (hnewer.size_eq.ge.trans hnewer.size_le)
          position_le := ?_
          restorable := { Restorable.trans hnewer holder with } }
      · intro id hid
        rw [drop_eq_drop_take_append view.journal hstart hnewer.start_le, KeyedLog.keys_append]
        exact mem_append_left _ (holder.bitmap id hid)
      · exact (position_openedAt hnewer holder).2.trans hnewer.position_le

theorem Chain.head_size_le (hch : Chain locked savepoints frames view) :
    ∀ savepoint ∈ savepoints.head?, savepoint.dbSize ≤ databaseSize view.contents := by
  cases hch with
  | nil => simp
  | cons hlevel _ => simpa using hlevel.size_le

/-- Seen from its own opening, a savepoint is at the end of the log. -/
theorem Level.position_take (hlevel : Level locked savepoint frame view) :
    savepoint.position (view.wal.take (savepoint.position view.wal)) =
      (view.wal.take (savepoint.position view.wal)).length := by
  have hle := hlevel.position_le
  cases hpos : savepoint.walPos with
  | none => simp [position, hpos]
  | some maxFrame =>
    rw [position, hpos, getD_some] at hle
    simp [position, hpos, hle]

/-- Handing the newest savepoint the end of the subjournal does nothing. -/
theorem Chain.setWriteOffset_eq (hch : Chain locked savepoints frames view) :
    setWriteOffset view.journal.length savepoints = savepoints := by
  cases hch with
  | nil => rfl
  | cons hlevel _ => rw [setWriteOffset, ← hlevel.write_eq]

variable {older : List Savepoint} {newest : Savepoint}

theorem Chain.tail (hch : Chain locked (newest :: older) (frame :: frames) view) (hne : older ≠ [])
    :
    Chain locked (setWriteOffset view.journal.length older) frames view := by
  cases older with
  | nil => exact absurd rfl hne
  | cons next rest =>
    cases frames with
    | nil => cases hch with | cons _ hrest => cases hrest
    | cons olderFrame frames => exact hch.pop

/-- The newest savepoint of a name and the frame it stands for are found together, and
everything above can be removed. -/
theorem Chain.find (name : String)
    (hch : Chain locked (setWriteOffset view.journal.length savepoints) frames view) :
    (findNamed kind name savepoints = none ∧ findNamed Frame.kind name frames = none) ∨
      ∃ target older frame olderFrames, findNamed kind name savepoints = some (target, older) ∧
        findNamed Frame.kind name frames = some (frame, olderFrames) ∧
        Chain locked (setWriteOffset view.journal.length (target :: older))
          (frame :: olderFrames) view := by
  induction savepoints generalizing frames with
  | nil =>
    cases hch
    exact .inl ⟨rfl, rfl⟩
  | cons newest older ih =>
    cases frames with
    | nil => cases hch
    | cons frame frames =>
      have hkind : newest.kind = frame.kind := by cases hch with | cons hlevel _ =>
        exact hlevel.kind_eq
      by_cases hnamed : newest.kind.isNamed name = true
      · refine .inr ⟨newest, older, frame, frames, if_pos hnamed, if_pos ?_, hch⟩
        rwa [← hkind]
      · rw [findNamed, if_neg hnamed, findNamed, if_neg (hkind ▸ hnamed)]
        by_cases hne : older = []
        · subst hne
          cases hch with
          | cons _ hrest => cases hrest with | nil => exact .inl ⟨rfl, rfl⟩
        · exact ih (hch.tail hne)

/-! ## Steps of the newest savepoint -/

/-- The page has an image for the savepoint, or is younger than it. -/
def Covered (savepoint : Savepoint) (journal : List (ℕ × ByteBuffer)) (id : ℕ) : Prop :=
  savepoint.dbSize < id ∨ id ∈ keys (journal.drop savepoint.startOffset)

/-- The header is on page 1, so it is among the pages that agree. -/
theorem databaseSize_congr {contents contents' : ℕ → ByteBuffer} {size : ℕ} (hsize : 1 ≤ size)
    (hagree : ∀ id ≤ size, contents id = contents' id) :
    databaseSize contents = databaseSize contents' := by
  rw [databaseSize, databaseSize, hagree 1 hsize]

/-- Only the pages up to its size matter to the newest savepoint. -/
theorem Chain.congr_contents (hch : Chain locked savepoints frames view) {contents : ℕ → ByteBuffer}
    (hagree : ∀ savepoint ∈ savepoints.head?, ∀ id ≤ savepoint.dbSize,
      contents id = view.contents id) :
    Chain locked savepoints frames { view with contents := contents } := by
  cases hch with
  | nil hjournal => exact .nil hjournal
  | @cons savepoint _ _ _ _ hlevel hrest =>
    have hsame := hagree savepoint rfl
    refine .cons { hlevel with size_le := ?_, restorable := ⟨?_, hlevel.restorable.unlogged⟩ } hrest
    · exact hlevel.size_le.trans (databaseSize_congr hlevel.size_pos hsame).ge
    · intro id hid
      rw [← hlevel.restorable.undo_eq id hid]
      exact undo_apply_congr (hsame id hid)

/-- A savepoint at the present end of the subjournal and the log has nothing to undo. -/
theorem Chain.push (hch : Chain locked savepoints frames { view with contents := frame.contents })
    (hkind : savepoint.kind = frame.kind)
    (hcounter : savepoint.deferredFkViolations = frame.deferredFkViolations)
    (hstart : savepoint.startOffset = view.journal.length)
    (hwrite : savepoint.writeOffset = view.journal.length) (hbitmap : savepoint.pageBitmap = ∅)
    (hsize : savepoint.dbSize = databaseSize frame.contents) (hpos : 1 ≤ savepoint.dbSize)
    (hlocked : savepoint.walPos.isSome = locked)
    (hposition : savepoint.position view.wal = view.wal.length)
    (hagree : ∀ id ≤ savepoint.dbSize, view.contents id = frame.contents id) :
    Chain locked (savepoint :: savepoints) (frame :: frames) view := by
  have hdrop : view.journal.drop savepoint.startOffset = [] := by rw [hstart, drop_length]
  have hopened : view.openedAt savepoint frame.contents =
      { view with contents := frame.contents } := by
    rw [View.openedAt, hstart, hposition, take_length, take_length]
  refine .cons
    { kind_eq := hkind
      counter_eq := hcounter
      start_le := hstart.le
      write_eq := hwrite
      bitmap := by simp [hbitmap]
      size_eq := hsize
      size_pos := hpos
      size_le := by rw [databaseSize_congr hpos hagree, hsize]
      locked_eq := hlocked
      position_le := hposition.le
      restorable := ⟨?_, ?_⟩ } (hopened ▸ hch)
  · intro id hid
    rw [hdrop]
    exact hagree id hid
  · intro id _ _
    rw [hposition, drop_length]
    exact not_mem_nil

theorem Level.append_image (hlevel : Level locked savepoint frame view) (id : ℕ) : Level locked
      { savepoint with
        pageBitmap := insert id savepoint.pageBitmap
        writeOffset := savepoint.writeOffset + 1 } frame
      { view with journal := view.journal ++ [(id, view.contents id)] } := by
  have hdrop : (view.journal ++ [(id, view.contents id)]).drop savepoint.startOffset =
      view.journal.drop savepoint.startOffset ++ [(id, view.contents id)] :=
    drop_append_of_le_length hlevel.start_le
  refine
    { hlevel with
      start_le := ?_
      write_eq := ?_
      bitmap := ?_
      restorable := ⟨?_, ?_⟩ }
  · simpa using hlevel.start_le.trans (Nat.le_succ _)
  · simp [hlevel.write_eq]
  · intro x hx
    rw [hdrop, KeyedLog.keys_append]
    rcases Finset.mem_insert.1 hx with rfl | hold
    · exact mem_append_right _ (by simp)
    · exact mem_append_left _ (hlevel.bitmap x hold)
  · intro x hx
    simp only [hdrop, undo_concat_self]
    exact hlevel.restorable.undo_eq x hx
  · intro x hx hkeys
    rw [hdrop, KeyedLog.keys_append, mem_append, not_or] at hkeys
    exact hlevel.restorable.unlogged x hx hkeys.1

theorem Chain.append_image (hch : Chain locked (newest :: older) frames view) (id : ℕ) :
    Chain locked
      ({ newest with
        pageBitmap := insert id newest.pageBitmap
        writeOffset := newest.writeOffset + 1 } :: older) frames
      { view with journal := view.journal ++ [(id, view.contents id)] } := by
  cases hch with
  | cons hlevel hrest =>
    refine .cons (hlevel.append_image id) ?_
    rw [View.openedAt, take_append_of_le_length hlevel.start_le]
    exact hrest

section
variable {id : ℕ} {contents : ByteBuffer}
  (hsize : databaseSize view.contents ≤ databaseSize (update view.contents id contents))
include hsize

theorem Level.modify (hlevel : Level locked savepoint frame view)
    (hcovered : Covered savepoint view.journal id) :
    Level locked savepoint frame { view with contents := update view.contents id contents } := by
  refine
    { hlevel with
      size_le := hlevel.size_le.trans hsize
      restorable := ⟨?_, hlevel.restorable.unlogged⟩ }
  intro x hx
  rw [← hlevel.restorable.undo_eq x hx]
  by_cases heq : x = id
  · subst heq
    exact undo_apply_of_mem (hcovered.resolve_left (by omega))
  · exact undo_apply_congr (update_of_ne heq _ _)

theorem Chain.modify (hch : Chain locked savepoints frames view)
    (hcovered : ∀ savepoint ∈ savepoints.head?, Covered savepoint view.journal id) :
    Chain locked savepoints frames { view with contents := update view.contents id contents } := by
  cases hch with
  | nil hjournal => exact .nil hjournal
  | cons hlevel hrest => exact .cons (hlevel.modify hsize (hcovered _ rfl)) hrest

end

variable {pages : List (ℕ × ByteBuffer)}

theorem Level.append_frames (hlevel : Level true savepoint frame view)
    (hcovered : ∀ id ∈ keys pages, Covered savepoint view.journal id) :
    Level true savepoint frame { view with wal := view.wal ++ pages } ∧
      savepoint.position (view.wal ++ pages) = savepoint.position view.wal := by
  obtain ⟨maxFrame, hmaxFrame⟩ := isSome_iff_exists.1 hlevel.locked_eq
  have hpos : ∀ wal, savepoint.position wal = maxFrame := fun wal => by
    rw [position, hmaxFrame, getD_some]
  have hle := hlevel.position_le
  rw [hpos] at hle
  refine ⟨{ hlevel with position_le := ?_, restorable := ⟨hlevel.restorable.undo_eq, ?_⟩ }, ?_⟩
  · rw [hpos]
    simpa using hle.trans (Nat.le_add_right _ _)
  · intro id hid hkeys
    have ho := hlevel.restorable.unlogged id hid hkeys
    rw [hpos] at ho ⊢
    rw [drop_append_of_le_length hle, KeyedLog.keys_append, mem_append, not_or]
    refine ⟨ho, fun hm => ?_⟩
    rcases hcovered id hm with hyoung | himage
    · omega
    · exact hkeys himage
  · rw [hpos, hpos]

theorem Chain.append_frames (hch : Chain true savepoints frames view)
    (hcovered : ∀ savepoint ∈ savepoints.head?, ∀ id ∈ keys pages,
      Covered savepoint view.journal id) :
    Chain true savepoints frames { view with wal := view.wal ++ pages } := by
  cases hch with
  | nil hjournal => exact .nil hjournal
  | cons hlevel hrest =>
    obtain ⟨hgrown, hpos⟩ := hlevel.append_frames (hcovered _ rfl)
    refine .cons hgrown ?_
    rw [View.openedAt, hpos, take_append_of_le_length hlevel.position_le]
    exact hrest

/-- Taking the write lock gives every savepoint the present position. -/
theorem Chain.lock (hch : Chain false savepoints frames view) (wal : List (ℕ × ByteBuffer)) :
    Chain true (savepoints.map fun savepoint =>
        { savepoint with walPos := some (savepoint.walPos.getD wal.length) })
      frames { view with wal := wal } := by
  induction savepoints generalizing frames view with
  | nil =>
    cases hch with
    | nil hjournal => exact .nil hjournal
  | cons newest older ih =>
    cases hch with
    | cons hlevel hrest =>
      have hpos : newest.walPos = none := by simpa using hlevel.locked_eq
      refine .cons
        { hlevel with
          locked_eq := rfl
          position_le := ?_
          restorable := ⟨hlevel.restorable.undo_eq, ?_⟩ } ?_
      · simp [position, hpos]
      · intro id _ _
        simp [position, hpos]
      · have hopened := ih hrest
        simpa [View.openedAt, position, hpos] using hopened

end Turso.Subjournal
