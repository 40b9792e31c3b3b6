import Mathlib.Data.List.Basic

/-!
# Logs of key-value pairs

A log of pairs can be read in two ways.  Redone over a store, its entries are
written in order and the last one for a key wins (`redo`); this is how a
write-ahead log is read.  Undone over a store, its entries are written back from
the newest to the oldest and the first one for a key wins (`undo`); this is how a
journal of before-images is read.

Both readings are compositional in the log (`redo_append`, `undo_append`), and
neither touches a key that the log does not mention.
-/

namespace KeyedLog

open Function List

variable {Key Value : Type*} [DecidableEq Key]

/-- The keys a log mentions. -/
def keys (log : List (Key × Value)) : List Key := log.map Prod.fst

/-- Write the entries of the log in order: the last one for a key wins. -/
def redo : List (Key × Value) → (Key → Value) → Key → Value
  | [], store => store
  | (key, value) :: rest, store => redo rest (update store key value)

/-- Write the entries of the log back, newest first: the first one for a key wins. -/
def undo : List (Key × Value) → (Key → Value) → Key → Value
  | [], store => store
  | (key, value) :: rest, store => update (undo rest store) key value

section Keys

omit [DecidableEq Key]

@[simp] theorem keys_nil : keys ([] : List (Key × Value)) = [] := rfl

@[simp] theorem keys_cons (e : Key × Value) (log : List (Key × Value)) :
    keys (e :: log) = e.1 :: keys log := rfl

@[simp] theorem keys_append (first second : List (Key × Value)) :
    keys (first ++ second) = keys first ++ keys second := map_append

end Keys

/-! ## Redo -/

theorem redo_append (a b : List (Key × Value)) (st : Key → Value) :
    redo (a ++ b) st = redo b (redo a st) := by
  induction a generalizing st with
  | nil => rfl
  | cons e a ih => exact ih _

variable {log : List (Key × Value)}

variable {st : Key → Value}

variable {key : Key}

theorem redo_apply_of_notMem
    (hkey : key ∉ keys log) : redo log st key = st key := by
  induction log generalizing st with
  | nil => rfl
  | cons entry log ih =>
    obtain ⟨hne, hlog⟩ := not_or.1 (mt mem_cons.2 hkey)
    rw [redo, ih hlog, update_of_ne hne]

/-- Entries about other keys at the end of a log do not matter. -/
theorem redo_append_apply_of_notMem {a b : List (Key × Value)} (hkey : key ∉ keys b) :
    redo (a ++ b) st key = redo a st key := by
  rw [redo_append, redo_apply_of_notMem hkey]

/-- If all entries for a key carry the same value, that value is written. -/
theorem redo_apply_of_mem
    {value : Value} (hkey : key ∈ keys log)
    (hvalue : ∀ entry ∈ log, entry.1 = key → entry.2 = value) : redo log st key = value := by
  induction log generalizing st with
  | nil => cases hkey
  | cons entry log ih =>
    by_cases hlog : key ∈ keys log
    · exact ih hlog fun entry hentry => hvalue entry (mem_cons_of_mem _ hentry)
    · obtain rfl : key = entry.1 := (mem_cons.1 hkey).resolve_right hlog
      rw [redo, redo_apply_of_notMem hlog, update_self]
      exact hvalue entry mem_cons_self rfl

/-! ## Undo -/

theorem undo_append (a b : List (Key × Value)) (st : Key → Value) :
    undo (a ++ b) st = undo a (undo b st) := by
  induction a with
  | nil => rfl
  | cons e a ih => rw [cons_append, undo, undo, ih]

variable {st' : Key → Value}

/-- What undoing gives for a key depends on the store at that key only. -/
theorem undo_apply_congr (hst : st key = st' key) : undo log st key = undo log st' key := by
  induction log with
  | nil => exact hst
  | cons entry log ih =>
    by_cases hkey : key = entry.1
    · simp [undo, hkey]
    · simp [undo, update_of_ne hkey, ih]

/-- For a key that the log mentions the store does not matter at all. -/
theorem undo_apply_of_mem (hkey : key ∈ keys log) : undo log st key = undo log st' key := by
  induction log with
  | nil => cases hkey
  | cons entry log ih =>
    by_cases heq : key = entry.1
    · simp [undo, heq]
    · have hlog : key ∈ keys log := (mem_cons.1 hkey).resolve_left heq
      simp [undo, update_of_ne heq, ih hlog]

theorem undo_apply_of_notMem
    (hkey : key ∉ keys log) : undo log st key = st key := by
  induction log with
  | nil => rfl
  | cons entry log ih =>
    obtain ⟨hne, hlog⟩ := not_or.1 (mt mem_cons.2 hkey)
    rw [undo, update_of_ne hne, ih hlog]

/-- Appending the present value of a key to a log does not change what undoing gives. -/
theorem undo_concat_self (log : List (Key × Value)) (store : Key → Value) (k : Key) :
    undo (log ++ [(k, store k)]) store = undo log store := by
  rw [undo_append]
  congr 1
  exact update_eq_self k store

end KeyedLog
