import Mathlib.Data.Nat.Notation

/-!
# Errors and pending I/O

The outcome types of the storage layer (`core/error.rs`, `core/io/completions.rs`):
a fallible function returns an `Except LimboError`, and a function that may have to
wait for a page returns an `IOResult`.
-/

namespace Turso

/-- `LimboError`, as far as the modelled functions return it.  Two constructors are
not errors of the source: `overflow` stands for an arithmetic operation that does
not fit its machine type, `assertion` for a failed `turso_assert!`. -/
inductive LimboError where
  | corrupt (message : String)
  | internalError (message : String)
  | databaseFull
  | overflow
  | assertion (message : String)
  deriving DecidableEq, Repr

/-- `IOResult`: a call either finishes or waits for I/O and must be repeated. -/
inductive IOResult (α : Type) where
  | done (value : α)
  | io
  deriving DecidableEq, Repr

theorem bind_eq_ok {ε α β : Type} {a : Except ε α} {next : α → Except ε β} {result : β} :
    a >>= next = .ok result ↔ ∃ value, a = .ok value ∧ next value = .ok result := by
  cases a with
  | error error => exact ⟨nofun, nofun⟩
  | ok value => exact ⟨fun h => ⟨value, rfl, h⟩, fun ⟨_, hv, h⟩ => by cases hv; exact h⟩

end Turso
